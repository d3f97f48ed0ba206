import Mathlib.Data.List.Forall2
import Mathlib.Data.List.Nodup
import Mathlib.Data.List.Perm.Subperm
import TreeQuery.Proofs.ListEvaluation
import TreeQuery.Proofs.Places
import TreeQuery.Proofs.Shortcut

/-! Equality of values and of queries. Values that are equal cannot be told apart by a comparison
with a third one, so equal queries accept the same nodes and find the same states, in the same
order. The flags of constructed queries follow from the rest and decide no comparison. -/

namespace TreeQuery

section Lists

variable {α β : Type}

/-- Only what holds of the members of the first list is asked of the relation. -/
theorem forall₂_symm {R : α → β → Prop} {S : β → α → Prop} {as : List α} {bs : List β}
    (h : ∀ a ∈ as, ∀ b, R a b → S b a) (hab : List.Forall₂ R as bs) : List.Forall₂ S bs as := by
  have hboth := (List.forall₂_and_left as bs).mpr ⟨h, hab⟩
  exact (hboth.imp fun a b hh => hh.1 b hh.2).flip

theorem forall₂_trans {R : α → α → Prop} {as bs cs : List α}
    (h : ∀ a ∈ as, ∀ b c, R a b → R b c → R a c) (hab : List.Forall₂ R as bs)
    (hbc : List.Forall₂ R bs cs) : List.Forall₂ R as cs := by
  induction hab generalizing cs with
  | nil => exact hbc
  | cons hr _ ih =>
    obtain ⟨ha, has⟩ := List.forall_mem_cons.mp h
    cases hbc with
    | cons hr' hrest => exact .cons (ha _ _ hr hr') (ih has hrest)

theorem map_eq_of_forall₂ {R : α → α → Prop} {f : α → β} {as bs : List α}
    (hab : List.Forall₂ R as bs) (h : ∀ a ∈ as, ∀ b, R a b → f a = f b) : as.map f = bs.map f := by
  induction hab with
  | nil => rfl
  | cons hr _ ih =>
    obtain ⟨ha, has⟩ := List.forall_mem_cons.mp h
    rw [List.map_cons, List.map_cons, ha _ hr, ih has]

end Lists

namespace Binary64

variable {x y z : Binary64}

theorem same_iff : x.same y ↔ x.significand = y.significand ∧ x.exponent = y.exponent ∧
    (x.negative = y.negative ∨ x.isZero) := by
  simp [same, and_assoc]

theorem same_symm (h : x.same y) : y.same x := by
  obtain ⟨hsignificand, hexponent, hsign⟩ := same_iff.mp h
  refine same_iff.mpr ⟨hsignificand.symm, hexponent.symm, hsign.imp Eq.symm ?_⟩
  rw [isZero, isZero, hsignificand]
  exact id

theorem same_trans (h : x.same y) (h' : y.same z) : x.same z := by
  obtain ⟨hsignificand, hexponent, hsign⟩ := same_iff.mp h
  obtain ⟨hsignificand', hexponent', hsign'⟩ := same_iff.mp h'
  refine same_iff.mpr ⟨hsignificand.trans hsignificand', hexponent.trans hexponent', ?_⟩
  rcases hsign with hsign | hzero
  · rcases hsign' with hsign' | hzero
    · exact .inl (hsign.trans hsign')
    · rw [isZero, ← hsignificand] at hzero
      exact .inr hzero
  · exact .inr hzero

end Binary64

namespace Value

def SameField (f g : String × Value) : Prop := f.1 = g.1 ∧ f.2.same g.2

theorem sameItems_iff {as bs : List Value} :
    sameItems as bs ↔ List.Forall₂ (fun a b => a.same b) as bs := by
  induction as generalizing bs with
  | nil => cases bs <;> simp [sameItems]
  | cons a as ih => cases bs <;> simp [sameItems, ih]

theorem sameFields_iff {as bs : List (String × Value)} :
    sameFields as bs ↔ List.Forall₂ SameField as bs := by
  induction as generalizing bs with
  | nil => cases bs <;> simp [sameFields]
  | cons a as ih => cases bs <;> simp [sameFields, ih, SameField]

theorem same_symm {v w : Value} (h : v.same w) : w.same v := by
  induction v generalizing w with
  | null => cases w <;> simp [same] at h ⊢
  | bool b => cases w <;> simp_all [same]
  | integer i => cases w <;> simp_all [same]
  | float x =>
    cases w with
    | float y => exact Binary64.same_symm h
    | _ => simp [same] at h
  | text s => cases w <;> simp_all [same]
  | array items ih =>
    cases w with
    | array items' =>
      rw [same, sameItems_iff] at h ⊢
      exact forall₂_symm (fun v hv w hvw => ih v hv hvw) h
    | _ => simp [same] at h
  | object fields ih =>
    cases w with
    | object fields' =>
      rw [same, sameFields_iff] at h ⊢
      exact forall₂_symm (fun f hf g hfg => ⟨hfg.1.symm, ih f hf hfg.2⟩) h
    | _ => simp [same] at h

theorem same_trans {u v w : Value} (h : u.same v) (h' : v.same w) : u.same w := by
  induction u generalizing v w with
  | null => cases v <;> cases w <;> simp [same] at h h' ⊢
  | bool b => cases v <;> cases w <;> simp_all [same]
  | integer i => cases v <;> cases w <;> simp_all [same]
  | float x =>
    cases v <;> cases w <;> simp [same] at h h' ⊢
    exact Binary64.same_trans h h'
  | text s => cases v <;> cases w <;> simp_all [same]
  | array items ih =>
    cases v <;> cases w <;> simp [same] at h h' ⊢
    rw [sameItems_iff] at *
    exact forall₂_trans (fun v hv _ _ hvw hwx => ih v hv hvw hwx) h h'
  | object fields ih =>
    cases v <;> cases w <;> simp [same] at h h' ⊢
    rw [sameFields_iff] at *
    exact forall₂_trans
      (fun f hf _ _ hfg hgk => ⟨hfg.1.trans hgk.1, ih f hf hfg.2 hgk.2⟩) h h'

theorem same_congr {u v w : Value} (h : v.same w) : u.same v = u.same w :=
  Bool.eq_iff_iff.mpr ⟨fun hv => same_trans hv h, fun hw => same_trans hw (same_symm h)⟩

end Value

namespace Properties

variable {ps qs : Properties}

theorem mem_entries_iff {name : String} {v : Value} :
    (name, v) ∈ ps.entries ↔ ps.get? name = some v :=
  mem_iff_lookup_of_nodup ps.nodup name v

theorem exists_of_same (h : ps.same qs) {e : String × Value} (he : e ∈ ps.entries) :
    ∃ f ∈ qs.entries, Value.SameField e f := by
  rw [same, Bool.and_eq_true, List.all_eq_true] at h
  obtain ⟨v, hv, hsame⟩ := (Option.any_eq_true ..).mp (h.2 e he)
  exact ⟨(e.1, v), mem_entries_iff.mpr hv, rfl, hsame⟩

/-- As many names, each of them among the others. -/
theorem names_perm_of_same (h : ps.same qs) :
    (ps.entries.map Prod.fst).Perm (qs.entries.map Prod.fst) := by
  have hsubset : ps.entries.map Prod.fst ⊆ qs.entries.map Prod.fst := by
    intro name hname
    obtain ⟨e, he, rfl⟩ := List.mem_map.mp hname
    obtain ⟨f, hf, hsame⟩ := exists_of_same h he
    exact List.mem_map.mpr ⟨f, hf, hsame.1.symm⟩
  rw [same, Bool.and_eq_true, beq_iff_eq] at h
  refine (ps.nodup.subperm hsubset).perm_of_length_le ?_
  rw [List.length_map, List.length_map]
  exact Nat.le_of_eq h.1.symm

theorem exists_of_same' (h : ps.same qs) {f : String × Value} (hf : f ∈ qs.entries) :
    ∃ e ∈ ps.entries, Value.SameField e f := by
  have hname := (names_perm_of_same h).mem_iff.mpr (List.mem_map_of_mem hf)
  obtain ⟨e, he, hef⟩ := List.mem_map.mp hname
  obtain ⟨g, hg, hsame⟩ := exists_of_same h he
  obtain rfl : g = f := List.inj_on_of_nodup_map qs.nodup hg hf (hsame.1.symm.trans hef)
  exact ⟨e, he, hsame⟩

/-- A test that does not tell equal values apart is passed by both or by none. -/
theorem all_congr_of_same (h : ps.same qs) (test : String → Value → Bool)
    (htest : ∀ name v w, v.same w → test name v = test name w) :
    (ps.entries.all fun e => test e.1 e.2) = qs.entries.all fun e => test e.1 e.2 := by
  rw [Bool.eq_iff_iff, List.all_eq_true, List.all_eq_true]
  constructor
  · intro hall f hf
    obtain ⟨e, he, hname, hvalue⟩ := exists_of_same' h hf
    rw [← hname, ← htest e.1 e.2 f.2 hvalue]
    exact hall e he
  · intro hall e he
    obtain ⟨f, hf, hname, hvalue⟩ := exists_of_same h he
    rw [hname, htest f.1 e.2 f.2 hvalue]
    exact hall f hf

end Properties

theorem Filter.same_iff {f g : Filter} : f.same g ↔ f.type = g.type ∧
    sameProperties f.properties g.properties ∧ f.direct = g.direct ∧ f.capture = g.capture := by
  simp [same, and_assoc]

theorem NodeKind.plain_accepts_of_same (sub : Subject) (n : Nat) (b : Bindings) {f g : Filter}
    (h : f.same g) :
    plain.accepts sub n f.type f.properties b = plain.accepts sub n g.type g.properties b := by
  obtain ⟨htype, hproperties, _, _⟩ := Filter.same_iff.mp h
  change acceptsBy ownValue sub n _ _ b = acceptsBy ownValue sub n _ _ b
  rw [acceptsBy, acceptsBy, htype]
  congr 1
  cases hf : f.properties with
  | none =>
    cases hg : g.properties with
    | none => rfl
    | some qs => simp [hf, hg, Filter.sameProperties] at hproperties
  | some ps =>
    cases hg : g.properties with
    | none => simp [hf, hg, Filter.sameProperties] at hproperties
    | some qs =>
      rw [hf, hg] at hproperties
      exact Properties.all_congr_of_same hproperties (fun name v => ownValue sub n name v b)
        fun _ _ _ hvw => Value.same_congr hvw

namespace Query

theorem sameAll_iff {qs rs : List Query} :
    sameAll qs rs ↔ List.Forall₂ (fun q r => q.same r) qs rs := by
  induction qs generalizing rs with
  | nil => cases rs <;> simp [sameAll]
  | cons q qs ih => cases rs <;> simp [sameAll, ih]

theorem hasCaptures_eq_of_same {q r : Query} (h : q.same r) : q.hasCaptures = r.hasCaptures := by
  induction q generalizing r with
  | single f nested ih =>
    cases r with
    | single g nested' =>
      rw [same, Bool.and_eq_true, Filter.same_iff] at h
      rw [hasCaptures, hasCaptures, h.1.2.2.2, ih h.2]
    | container mode children => simp [same] at h
  | container mode children ih =>
    cases r with
    | single g nested' => simp [same] at h
    | container mode' children' =>
      rw [same, Bool.and_eq_true, sameAll_iff] at h
      rw [hasCaptures, hasCaptures, anyCaptures_eq_any, anyCaptures_eq_any]
      have hmap := map_eq_of_forall₂ h.2 fun q hq r hqr => ih q hq hqr
      simpa [List.any_map] using congrArg (List.any · id) hmap

theorem isSingle_eq_of_same {q r : Query} (h : q.same r) : q.isSingle = r.isSingle := by
  cases q <;> cases r <;> simp [same] at h <;> rfl

theorem isPrimitive_eq_of_same {q r : Query} (h : q.same r) : q.isPrimitive = r.isPrimitive := by
  cases q <;> cases r <;> simp [same] at h <;> simp [isPrimitive, h]

end Query

namespace Scene

/-- Acceptance does not tell equal filters apart. -/
def RespectsSame (scene : Scene) : Prop :=
  ∀ f g n b, f.same g → scene.acceptance f n b = scene.acceptance g n b

variable {scene : Scene}

theorem map_stretch_eq (qs : List Query) :
    (Query.stretches qs).map scene.stretch =
      ((qs.map fun q => (q.isSingle, scene.results q)).zip
        (true :: qs.map Query.isPrimitive)).map fun part =>
          scene.covering (part.2 && part.1.1) part.1.2 := by
  rw [List.zip_map_left, List.map_map]
  rfl

theorem results_of_same (hscene : scene.RespectsSame) {q r : Query} (h : q.same r) :
    scene.results q = scene.results r := by
  induction q generalizing r with
  | single f nested ih =>
    cases r with
    | container mode children => simp [Query.same] at h
    | single g nested' =>
      have hcaptures := Query.hasCaptures_eq_of_same h
      rw [Query.same, Bool.and_eq_true] at h
      obtain ⟨_, _, hdirect, hcapture⟩ := Filter.same_iff.mp h.1
      have hcandidates (s : State) : scene.candidates f s = scene.candidates g s := by
        rw [candidates, candidates, hdirect]
      have haccepts (s : State) (id : Nat) : scene.accepts f s id = scene.accepts g s id := by
        rw [accepts, accepts, hcapture, hscene f g _ _ h.1]
      have hbelow (s : State) (id : Nat) (captures : Bool) (find : Find) :
          scene.below f captures find s id = scene.below g captures find s id := by
        rw [below, below, hcapture]
      funext s
      simp only [results_single, hcandidates, haccepts, hbelow, hcaptures, ih h.2]
  | container mode children ih =>
    cases r with
    | single g nested' => simp [Query.same] at h
    | container mode' children' =>
      rw [Query.same, Bool.and_eq_true, beq_iff_eq, Query.sameAll_iff] at h
      obtain ⟨rfl, h⟩ := h
      have hresults : children.map scene.results = children'.map scene.results :=
        map_eq_of_forall₂ h fun q hq r hqr => ih q hq hqr
      have hkinds : children.map (fun q => (q.isSingle, scene.results q)) =
          children'.map fun q => (q.isSingle, scene.results q) :=
        map_eq_of_forall₂ h fun q hq r hqr => by
          rw [Query.isSingle_eq_of_same hqr, ih q hq hqr]
      have hprimitive : children.map Query.isPrimitive = children'.map Query.isPrimitive :=
        map_eq_of_forall₂ h fun _ _ _ hqr => Query.isPrimitive_eq_of_same hqr
      funext s
      cases mode with
      | ordered => rw [results_ordered, results_ordered, hresults]
      | unordered =>
        have hanywhere := congrArg (List.map (scene.anywhere s)) hresults
        rw [List.map_map, List.map_map] at hanywhere
        rw [results_unordered, results_unordered]
        exact congrArg (chain List.eraseDups · s) hanywhere
      | any =>
        have hempty := congrArg List.isEmpty hresults
        rw [List.isEmpty_map, List.isEmpty_map] at hempty
        rw [results_any, results_any, hresults, hempty]
      | optional => rw [results_optional, results_optional, hresults]
      | exact =>
        rw [results_exact, results_exact, map_stretch_eq, map_stretch_eq, Query.endsClosed,
          Query.endsClosed, ← List.getLast?_map, ← List.getLast?_map, hkinds, hprimitive]

end Scene

namespace FlaggedQuery

theorem sameAll_iff {qs rs : List FlaggedQuery} :
    sameAll qs rs ↔ List.Forall₂ (fun q r => q.same r) qs rs := by
  induction qs generalizing rs with
  | nil => cases rs <;> simp [sameAll]
  | cons q qs ih => cases rs <;> simp [sameAll, ih]

variable {q r : FlaggedQuery}

theorem Constructed.nested {f : Filter} {nested : FlaggedQuery} {captures : Bool}
    (h : (FlaggedQuery.single f nested captures).Constructed) : nested.Constructed := by
  generalize hq : FlaggedQuery.single f nested captures = q at h
  refine h.induction
    (motive := fun q => .single f nested captures = q → nested.Constructed) ?_ ?_ hq
  · intro f' nested' hnested _ he
    obtain ⟨_, rfl, _⟩ := FlaggedQuery.single.inj he
    exact hnested
  · intro mode children _ _ he
    cases he

theorem Constructed.parts {mode : Mode} {children : List FlaggedQuery} {captures : Bool}
    (h : (FlaggedQuery.container mode children captures).Constructed) :
    ∀ q ∈ children, q.Constructed := by
  generalize hq : FlaggedQuery.container mode children captures = q at h
  refine h.induction (motive := fun q => .container mode children captures = q →
    ∀ q ∈ children, q.Constructed) ?_ ?_ hq
  · intro f nested _ _ he
    cases he
  · intro mode' children' hchildren _ he
    obtain ⟨_, rfl, _⟩ := FlaggedQuery.container.inj he
    exact hchildren

theorem sameAll_eq {qs rs : List FlaggedQuery}
    (h : ∀ q ∈ qs, ∀ r ∈ rs, q.same r = q.query.same r.query) :
    sameAll qs rs = Query.sameAll (queries qs) (queries rs) := by
  induction qs generalizing rs with
  | nil => cases rs <;> rfl
  | cons q qs ih =>
    cases rs with
    | nil => rfl
    | cons r rs =>
      have hrest := ih fun q hq r hr =>
        h q (List.mem_cons_of_mem _ hq) r (List.mem_cons_of_mem _ hr)
      have hfirst := h q List.mem_cons_self r List.mem_cons_self
      rw [sameAll, queries, queries, Query.sameAll, hfirst, hrest]

/-- The flags of constructed queries agree wherever all else does. -/
theorem Constructed.same_eq (hq : q.Constructed) (hr : r.Constructed) :
    q.same r = q.query.same r.query := by
  have hflags {q r : FlaggedQuery} (hq : q.Constructed) (hr : r.Constructed)
      (h : q.query.same r.query) : (q.captures == r.captures) = true := by
    rw [hq.captures_eq, hr.captures_eq, Query.hasCaptures_eq_of_same h, beq_self_eq_true]
  induction q generalizing r with
  | single f nested captures ih =>
    cases r with
    | container mode children captures' => rfl
    | single g nested' captures' =>
      have hflag := hflags hq hr
      rw [query, query, Query.same] at hflag ⊢
      rw [same, ih hq.nested hr.nested]
      exact Bool.and_eq_left_iff_imp.mpr hflag
  | container mode children captures ih =>
    cases r with
    | single g nested' captures' => rfl
    | container mode' children' captures' =>
      have hflag := hflags hq hr
      have hchildren : sameAll children children' =
          Query.sameAll (queries children) (queries children') :=
        sameAll_eq fun q hmem r hmem' => ih q hmem (hq.parts q hmem) (hr.parts r hmem')
      rw [query, query, Query.same] at hflag ⊢
      rw [same, hchildren]
      exact Bool.and_eq_left_iff_imp.mpr hflag

end FlaggedQuery

namespace Matcher

theorem plain_respectsSame (config : MatchConfig) (traced : Bool) (sub : Subject)
    (tree : LinkedTree) : (({ config, traced } : Matcher).scene sub tree).RespectsSame :=
  fun _ _ n b h => NodeKind.plain_accepts_of_same sub n b h

/-- Constructed queries are equal as soon as they ask for the same, whatever their flags; then their
flags are equal at every level, and from every start both find the same states, in the same order
and each as often. -/
theorem evaluate_same (config : MatchConfig) (traced : Bool) (sub : Subject) (tree : LinkedTree)
    {q r : FlaggedQuery} (hq : q.Constructed) (hr : r.Constructed) :
    let scene := ({ config, traced } : Matcher).scene sub tree
    q.same r = q.query.same r.query ∧
      (q.same r → ∀ s,
        ((scene.planFlagged q).run s).items = ((scene.planFlagged r).run s).items) := by
  intro scene
  have hsame := hq.same_eq hr
  refine ⟨hsame, fun h s => ?_⟩
  rw [hsame] at h
  rw [Scene.planFlagged_eq_plan hq, Scene.planFlagged_eq_plan hr]
  exact congrFun (Scene.results_of_same (plain_respectsSame config traced sub tree) h) s

/-- The properties are given in another order, and inside one of them the zeros differ in sign. -/
theorem evaluate_same_reordered :
    let zeros (negative : Bool) : Value :=
      .array [.object [("k", .float (.zero negative))], .integer 1]
    let inner := ([.capture "Y"].foldl SingleBuilder.call (.ofType (some "b"))).build
    let q := ([.property "n" .null, .property "z" (zeros false), .capture "X",
      .children inner].foldl SingleBuilder.call (.ofType none)).build
    let r := ([.children inner, .property "z" (zeros true), .capture "X",
      .property "n" .null].foldl SingleBuilder.call (.ofType none)).build
    let a : Node := Node.addChildren ((Node.ofType "a").setProperty "z" (zeros true)) [.ofType "b"]
    let n : Node := Node.addChildren (.ofType "root") [a]
    let scene := ({} : Matcher).scene (.ofNode n) (.ofTree n.places)
    let s : State := .initial scene.tree
    let found : State := ⟨0, none, .ofList [("X", 1), ("Y", 2)]⟩
    q.Constructed ∧ r.Constructed ∧ q.query.same r.query ∧ q.same r ∧
      found ∈ ((scene.planFlagged q).run s).items ∧
      found ∈ ((scene.planFlagged r).run s).items := by
  intro zeros inner q r a n scene s found
  have hinner : inner.Constructed := .single (some "b") _ (by simp)
  have hq : q.Constructed := .single none _ (by simpa using hinner)
  have hr : r.Constructed := .single none _ (by simpa using hinner)
  obtain ⟨heq, hitems⟩ := evaluate_same {} false (.ofNode n) (.ofTree n.places) hq hr
  have hsame : q.same r := by decide +kernel
  have hfound : found ∈ ((scene.planFlagged q).run s).items := by
    rw [Scene.planFlagged_eq_plan hq]
    change found ∈ (scene.evaluate q.query s).items
    rw [Scene.mem_evaluate_iff]
    decide +kernel
  exact ⟨hq, hr, heq ▸ hsame, hsame, hfound, hitems hsame s ▸ hfound⟩

end Matcher

end TreeQuery
