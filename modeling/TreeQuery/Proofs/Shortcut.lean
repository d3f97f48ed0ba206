import TreeQuery.Proofs.CaptureFree
import TreeQuery.Query.Flagged

/-! The shortcut below single queries. Where the flag of a query says that nothing in it captures,
one nested result is taken for all. The flags of constructed queries are right, and to take all
nested results everywhere changes no result, neither its place in the order nor how often it
comes. -/

namespace TreeQuery

namespace FlaggedQuery

@[elab_as_elim, induction_eliminator]
theorem induction {motive : FlaggedQuery → Prop}
    (single : ∀ f nested captures, motive nested → motive (.single f nested captures))
    (container : ∀ mode children captures, (∀ q ∈ children, motive q) →
      motive (.container mode children captures))
    (q : FlaggedQuery) : motive q :=
  @FlaggedQuery.rec motive (fun qs => ∀ q ∈ qs, motive q) single container
    (fun _ h => absurd h List.not_mem_nil)
    (fun _ _ hq hqs _ h => (List.mem_cons.mp h).elim (fun he => he ▸ hq) (hqs _)) q

theorem queries_eq_map (qs : List FlaggedQuery) : queries qs = qs.map query := by
  induction qs with
  | nil => rfl
  | cons q qs ih => rw [queries, ih, List.map_cons]

theorem flagEach_eq_map (qs : List FlaggedQuery) : flagEach qs = qs.map flagAll := by
  induction qs with
  | nil => rfl
  | cons q qs ih => rw [flagEach, ih, List.map_cons]

theorem query_flagAll (q : FlaggedQuery) : q.flagAll.query = q.query := by
  induction q with
  | single f nested captures ih => rw [flagAll, query, query, ih]
  | container mode children captures ih =>
    have hqueries : (children.map flagAll).map query = children.map query := by
      rw [List.map_map]
      exact List.map_congr_left ih
    rw [flagAll, query, query, queries_eq_map, queries_eq_map, flagEach_eq_map, hqueries]

end FlaggedQuery

/-- What a builder holds for the nodes below has been given to it by a call. -/
theorem SingleBuilder.mem_calls_of_nested_eq_some {calls : List Call} {b : SingleBuilder}
    (hb : b.nested = none) {q : FlaggedQuery} (h : (calls.foldl call b).nested = some q) :
    .children q ∈ calls := by
  have hgiven : b.nested = some q ∨ .children q ∈ calls := by
    clear hb
    induction calls generalizing b with
    | nil => exact .inl h
    | cons c calls ih =>
      rcases ih h with h | h
      · cases c with
        | children own =>
          obtain rfl := Option.some.inj h
          exact .inr List.mem_cons_self
        | property name value => exact .inl h
        | direct => exact .inl h
        | capture name => exact .inl h
      · exact .inr (List.mem_cons_of_mem _ h)
  exact hgiven.resolve_left (by simp [hb])

namespace FlaggedQuery

theorem Constructed.induction {motive : FlaggedQuery → Prop}
    (single : ∀ f nested, nested.Constructed → motive nested →
      motive (.single f nested (f.capture.isSome || nested.captures)))
    (container : ∀ mode children, (∀ q ∈ children, q.Constructed) → (∀ q ∈ children, motive q) →
      motive (.ofMode mode children))
    {q : FlaggedQuery} (h : q.Constructed) : motive q := by
  induction h with
  | single type calls nested ih =>
    cases hb : (calls.foldl SingleBuilder.call (.ofType type)).nested with
    | none =>
      have hempty : motive .empty := container .ordered [] (by simp) (by simp)
      rw [SingleBuilder.build, hb]
      exact single _ _ (.container .ordered [] (by simp)) hempty
    | some q =>
      have hq := SingleBuilder.mem_calls_of_nested_eq_some rfl hb
      rw [SingleBuilder.build, hb]
      exact single _ q (nested q hq) (ih q hq)
  | container mode children parts ih => exact container mode children parts ih

/-- Whatever the order of the calls, the flag says whether anything captures. -/
theorem Constructed.captures_eq {q : FlaggedQuery} (h : q.Constructed) :
    q.captures = q.query.hasCaptures := by
  refine h.induction (motive := fun q => q.captures = q.query.hasCaptures) ?_ ?_
  · intro f nested _ ih
    rw [captures, query, Query.hasCaptures, ih]
  · intro mode children _ ih
    rw [ofMode, captures, query, Query.hasCaptures, Query.anyCaptures_eq_any, queries_eq_map,
      List.any_map, Bool.eq_iff_iff, List.any_eq_true, List.any_eq_true]
    exact exists_congr fun q => and_congr_right fun hq => by rw [ih q hq, Function.comp_apply]

end FlaggedQuery

namespace Scene

variable (scene : Scene)

mutual

/-- The plan of a query that goes by the flags kept in it. -/
def planFlagged : FlaggedQuery → Plan
  | .single f nested captures =>
    { query := .single f nested.query
      run := scene.single f captures (planFlagged nested).run }
  | .container mode children _ =>
    { query := .container mode (FlaggedQuery.queries children)
      run := scene.container mode (plansFlagged children) }

def plansFlagged : List FlaggedQuery → List Plan
  | [] => []
  | q :: qs => planFlagged q :: plansFlagged qs

end

theorem plansFlagged_eq_map (qs : List FlaggedQuery) :
    scene.plansFlagged qs = qs.map scene.planFlagged := by
  induction qs with
  | nil => rfl
  | cons q qs ih => rw [plansFlagged, ih, List.map_cons]

theorem query_planFlagged (q : FlaggedQuery) : (scene.planFlagged q).query = q.query := by
  cases q <;> rw [planFlagged, FlaggedQuery.query]

end Scene

namespace Scene

variable {scene : Scene}

/-- Going by the flags of a constructed query is going by what the query captures. -/
theorem planFlagged_eq_plan {q : FlaggedQuery} (h : q.Constructed) :
    scene.planFlagged q = scene.plan q.query := by
  refine h.induction (motive := fun q => scene.planFlagged q = scene.plan q.query) ?_ ?_
  · intro f nested hnested ih
    rw [planFlagged, FlaggedQuery.query, plan, ih, hnested.captures_eq, Query.hasCaptures]
  · intro mode children _ ih
    have hplans : scene.plansFlagged children = scene.plans (FlaggedQuery.queries children) := by
      rw [plansFlagged_eq_map, plans_eq_map, FlaggedQuery.queries_eq_map, List.map_map]
      exact List.map_congr_left ih
    rw [FlaggedQuery.ofMode, planFlagged, FlaggedQuery.query, plan, hplans]

/-- What a container finds depends on its children only through what they are and what they find. -/
theorem items_container_congr {ι : Type} {parts : List ι} {a b : ι → Plan}
    (hquery : ∀ i ∈ parts, (a i).query = (b i).query)
    (hresults : ∀ i ∈ parts, (a i).results = (b i).results) (mode : Mode) (s : State) :
    (scene.container mode (parts.map a) s).items =
      (scene.container mode (parts.map b) s).items := by
  have hqueries : (parts.map a).map Plan.query = (parts.map b).map Plan.query := by
    rw [List.map_map, List.map_map]
    exact List.map_congr_left hquery
  have hfound : (parts.map a).map Plan.results = (parts.map b).map Plan.results := by
    rw [List.map_map, List.map_map]
    exact List.map_congr_left hresults
  cases mode with
  | ordered => rw [container, container, items_ordered, items_ordered, hfound]
  | unordered =>
    have hanywhere := congrArg (List.map (scene.anywhere s)) hfound
    simp only [List.map_map, Function.comp_def] at hanywhere
    rw [container, container, items_unordered, items_unordered, List.map_map, List.map_map]
    exact congrArg (chain List.eraseDups · s) hanywhere
  | any =>
    rw [container, container, items_any, items_any, List.isEmpty_map, List.isEmpty_map, hfound]
  | optional =>
    rw [container, container, items_any, items_any, List.isEmpty_map, List.isEmpty_map, hfound]
  | exact =>
    have hprimitive := congrArg (List.map Query.isPrimitive) hqueries
    simp only [List.map_map, Function.comp_def] at hprimitive
    have hparts (closed : List Bool) :
        ((parts.map a).zip closed).map (fun part =>
          scene.covering (part.2 && part.1.query.isSingle) part.1.results) =
        ((parts.map b).zip closed).map fun part =>
          scene.covering (part.2 && part.1.query.isSingle) part.1.results := by
      rw [List.zip_map_left, List.zip_map_left, List.map_map, List.map_map]
      refine List.map_congr_left fun part hpart => ?_
      have hi := (List.of_mem_zip hpart).1
      simp only [Function.comp_apply, Prod.map, hquery _ hi, hresults _ hi]
    rw [container, container, items_exact, items_exact, hqueries]
    simp only [hparts, List.map_map, Function.comp_def, hprimitive]

theorem results_planFlagged_flagAll (q : FlaggedQuery) :
    (scene.planFlagged q.flagAll).results = scene.results q.query := by
  induction q with
  | single f nested captures ih =>
    funext s
    rw [FlaggedQuery.flagAll, planFlagged, FlaggedQuery.query, results_single]
    refine (scene.items_single f true (scene.planFlagged nested.flagAll) s).trans ?_
    rw [ih]
    cases hcaptures : (Query.single f nested.query).hasCaptures with
    | true => rfl
    | false =>
      rw [Query.hasCaptures, Bool.or_eq_false_iff] at hcaptures
      simp only [below_of_captureFree hcaptures.2]
  | container mode children captures ih =>
    funext s
    have hflagged : scene.plansFlagged (FlaggedQuery.flagEach children) =
        children.map fun q => scene.planFlagged q.flagAll := by
      rw [plansFlagged_eq_map, FlaggedQuery.flagEach_eq_map, List.map_map]
      rfl
    have hplain : scene.plans (FlaggedQuery.queries children) =
        children.map fun q => scene.plan q.query := by
      rw [plans_eq_map, FlaggedQuery.queries_eq_map, List.map_map]
      rfl
    rw [FlaggedQuery.flagAll, planFlagged, FlaggedQuery.query, results, evaluate, plan, hflagged,
      hplain]
    refine items_container_congr (fun q _ => ?_) ih mode s
    rw [query_planFlagged, plan_query, FlaggedQuery.query_flagAll]

/-- One nested result for all where nothing is captured is no loss: going by the flags that the
constructors have left finds, from every start, what taking all nested results everywhere finds,
each as often and at the same place in the order. -/
theorem shortcut_exact {q : FlaggedQuery} (h : q.Constructed) :
    scene.planFlagged q = scene.plan q.query ∧
    ∀ s, ((scene.planFlagged q).run s).items = ((scene.planFlagged q.flagAll).run s).items := by
  refine ⟨planFlagged_eq_plan h, fun s => ?_⟩
  have hall := congrFun (@results_planFlagged_flagAll scene q) s
  rw [planFlagged_eq_plan h]
  exact hall.symm

/-- A query without captures that has two results below its node, beside one whose capture is set
after its nested query. -/
theorem shortcut_exact_two_nested :
    let scene : Scene :=
      { tree := .ofTree (.node 0 [.node 1 [.node 2 [], .node 3 []], .node 4 [.node 5 []]])
        type := fun _ => "", acceptance := fun _ _ _ => true }
    let leaf := ([].foldl SingleBuilder.call (.ofType none)).build
    let two := ([.children (.ofMode .any [leaf])].foldl SingleBuilder.call (.ofType none)).build
    let inner := ([.capture "X"].foldl SingleBuilder.call (.ofType none)).build
    let outer := ([.children inner, .direct, .capture "P"].foldl SingleBuilder.call
      (.ofType none)).build
    let q : FlaggedQuery := .ofMode .ordered [two, outer]
    let s : State := .initial scene.tree
    let r : State := ⟨0, none, .ofList [("P", 4), ("X", 5)]⟩
    q.Constructed ∧ two.captures = false ∧ outer.captures = true ∧
      (scene.results (.container .any [leaf.query]) ⟨1, some 2, .empty⟩).length = 2 ∧
      r ∈ ((scene.planFlagged q).run s).items ∧
      r ∈ ((scene.planFlagged q.flagAll).run s).items := by
  intro scene leaf two inner outer q s r
  have hleaf : leaf.Constructed := .single none [] (by simp)
  have hinner : inner.Constructed := .single none _ (by simp)
  have htwo : two.Constructed := .single none _ (by simpa using .container .any _ (by simpa))
  have houter : outer.Constructed := .single none _ (by simpa)
  have hq : q.Constructed := .container .ordered _ (by simp [htwo, houter])
  obtain ⟨hplan, hitems⟩ := @shortcut_exact scene q hq
  have hr : r ∈ ((scene.planFlagged q).run s).items := by
    rw [hplan]
    change r ∈ (scene.evaluate q.query s).items
    rw [mem_evaluate_iff]
    decide +kernel
  refine ⟨hq, rfl, rfl, ?_, hr, hitems s ▸ hr⟩
  rw [results_eq_find]
  decide +kernel

end Scene

end TreeQuery
