import TreeQuery.Proofs.Chains

/-! Dropping duplicates along the way loses nothing: the naive evaluator, which keeps them all,
finds the same states and the same matches in the same order of discovery. -/

namespace TreeQuery

namespace Query

theorem sizeOf_nested_lt (f : Filter) (nested : Query) :
    sizeOf nested < sizeOf (single f nested) := by
  rw [single.sizeOf_spec]
  omega

theorem sizeOf_lt_of_mem (mode : Mode) {q : Query} {children : List Query} (h : q ∈ children) :
    sizeOf q < sizeOf (container mode children) := by
  have := List.sizeOf_lt_of_mem h
  rw [container.sizeOf_spec]
  omega

end Query

namespace Scene

variable (scene : Scene)

/-- All nested results below an accepted candidate, or the first if nothing is captured. -/
def naiveBelow (f : Filter) (captures : Bool) (find : Find) (s : State) (id : Nat) : List State :=
  let found := (find (s.enter scene.tree f.capture id)).map State.bindings
  (if captures then found else found.take 1).map (s.past scene.tree id).withBindings

def naiveSingle (f : Filter) (captures : Bool) (find : Find) : Find := fun s =>
  (scene.candidates f s).items.flatMap fun id =>
    if scene.accepts f s id then scene.naiveBelow f captures find s id else []

def naiveAccumulated (children : List Find) : Find := fun s =>
  children.foldl (fun found child => found ++ (s :: found.map (·.startAt s)).flatMap child) []

/-- Evaluation without a memo that never drops a duplicate. -/
def naive : Query → Find
  | .single f nested =>
    scene.naiveSingle f (Query.single f nested).hasCaptures (naive nested)
  | .container .ordered children => chain id (children.attach.map fun q => naive q.1)
  | .container .unordered children => fun s =>
    chain id (children.attach.map fun q => scene.anywhere s (naive q.1)) s
  | .container .any children => fun s =>
    if children.isEmpty then [s]
    else naiveAccumulated (children.attach.map fun q => naive q.1) s
  | .container .optional children => fun s =>
    let found := naiveAccumulated (children.attach.map fun q => naive q.1) s
    if found.isEmpty then [s] else found
  | .container .exact children => fun s =>
    let found := chain id ((Query.stretches children).attach.map fun part =>
      scene.covering (part.1.2 && part.1.1.isSingle) (naive part.1.1)) s
    if Query.endsClosed children then found.filter (·.cursor.isNone) else found
decreasing_by
  · exact Query.sizeOf_nested_lt f nested
  iterate 4
    · exact Query.sizeOf_lt_of_mem _ q.2
  · exact Query.sizeOf_lt_of_mem _ (Query.mem_of_mem_stretches part.2)

theorem below_sameFirsts {find other : Find} (h : ∀ s, SameFirsts (find s) (other s)) (f : Filter)
    (captures : Bool) (s : State) (id : Nat) :
    SameFirsts (scene.naiveBelow f captures find s id) (scene.below f captures other s id) := by
  have hfound := (h (s.enter scene.tree f.capture id)).map State.bindings
  apply SameFirsts.map
  cases captures with
  | true => exact hfound.trans (SameFirsts.eraseDups _).symm
  | false =>
    simp only [Bool.false_eq_true, if_false, hfound.take_one_eq]
    exact .refl _

theorem anywhere_sameFirsts {find other : Find} (h : ∀ s, SameFirsts (find s) (other s))
    (s before : State) :
    SameFirsts (scene.anywhere s find before) (scene.anywhere s other before) :=
  (h _).map _

theorem covering_sameFirsts {find other : Find} (h : ∀ s, SameFirsts (find s) (other s))
    (nextOnly : Bool) (before : State) :
    SameFirsts (scene.covering nextOnly find before) (scene.covering nextOnly other before) := by
  have hfound := (h before).map (·.align scene.tree)
  cases nextOnly with
  | false => exact hfound
  | true =>
    simp only [covering, if_true]
    split
    · exact hfound.filter _
    · exact .refl _

theorem accumulated_sameFirsts {qs : List Query} {find other : Query → Find}
    (h : ∀ q ∈ qs, ∀ s, SameFirsts (find q s) (other q s)) (s : State) :
    SameFirsts (naiveAccumulated (qs.map find) s) (accumulated (qs.map other) s) := by
  rw [naiveAccumulated, accumulated, List.foldl_map, List.foldl_map]
  apply List.foldl_rel (r := SameFirsts) (.refl _)
  intro q hq naive found hn
  have hseeds : SameFirsts (s :: naive.map (·.startAt s))
      (s :: found.map (·.startAt s)).eraseDups :=
    (SameFirsts.append (.refl [s]) (hn.map _)).trans (SameFirsts.eraseDups _).symm
  exact (hn.append (hseeds.flatMap (h q hq))).trans (SameFirsts.eraseDups _).symm

end Scene

theorem Scene.naive_sameFirsts (scene : Scene) (q : Query) (s : State) :
    SameFirsts (scene.naive q s) (scene.results q s) := by
  induction q generalizing s with
  | single f nested ih =>
    rw [naive, results_single]
    apply SameFirsts.flatMap_right
    intro id
    split
    · exact scene.below_sameFirsts ih f _ s id
    · exact .refl _
  | container mode children ih =>
    cases mode with
    | ordered =>
      rw [naive, results_ordered, List.attach_map_val]
      exact chain_sameFirsts children ih s
    | unordered =>
      rw [naive, results_unordered]
      simp only [List.map_subtype, List.unattach_attach]
      exact chain_sameFirsts children (fun q hq => scene.anywhere_sameFirsts (ih q hq) s) s
    | any =>
      rw [naive, results_any, List.attach_map_val]
      split
      · exact .refl _
      · exact accumulated_sameFirsts ih s
    | optional =>
      rw [naive, results_optional, List.attach_map_val]
      have hfound := accumulated_sameFirsts ih s
      simp only [hfound.isEmpty_eq]
      split
      · exact .refl _
      · exact hfound
    | exact =>
      rw [naive, results_exact]
      have hfound := chain_sameFirsts (Query.stretches children)
        (fun part hp => scene.covering_sameFirsts (ih part.1 (Query.mem_of_mem_stretches hp))
          (part.2 && part.1.isSingle)) s
      simp only [List.map_subtype, List.unattach_attach]
      split
      · exact hfound.filter _
      · exact hfound

/-- The naive evaluator's bindings over all targets of a subject. -/
def Matcher.naiveMatches (m : Matcher) (q : Query) (s : Subject) : List Bindings :=
  ((s.targets 0).filterMap s.tree?).flatMap fun t =>
    ((m.scene s (.ofTree t)).naive q (.initial (.ofTree t))).map State.bindings

/-- Every evaluation finds what the naive one finds, up to repetitions, and a search hands over the
first occurrences of the naive matches: all of them, each once, in the order of discovery. -/
theorem Matcher.search_eq_naive (m : Matcher) (q : Query) (s : Subject) :
    (∀ (tree : LinkedTree) (start : State),
      ((m.scene s tree).naive q start).eraseDups =
        ((m.scene s tree).evaluate q start).items.eraseDups) ∧
    (m.search q s).items = (m.naiveMatches q s).eraseDups ∧
    (m.search q s).items.Nodup ∧
    ∀ b, b ∈ (m.search q s).items ↔ b ∈ m.naiveMatches q s := by
  have hsearch : (m.search q s).items = (m.naiveMatches q s).eraseDups := by
    rw [items_search, naiveMatches]
    refine (SameFirsts.flatMap_right _ fun t => ?_).symm
    exact ((m.scene s (.ofTree t)).naive_sameFirsts q _).map State.bindings
  refine ⟨fun tree start => (m.scene s tree).naive_sameFirsts q start, hsearch, ?_, ?_⟩
  · rw [hsearch]
    exact nodup_eraseDups _
  · intro b
    rw [hsearch, List.mem_eraseDups]

end TreeQuery
