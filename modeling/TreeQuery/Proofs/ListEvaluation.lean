import TreeQuery.Proofs.Results

/-! Evaluation over complete lists, by recursion on the query alone. It finds what the lazy
evaluator with its memo finds, and it can be run on a small tree where that one cannot. -/

namespace TreeQuery

namespace Scene

variable (scene : Scene)

/-- What a container finds, its children paired with what each of them finds. -/
def findContainer (mode : Mode) (children : List (Query × Find)) : Find := fun s =>
  match mode with
  | .ordered => chain List.eraseDups (children.map Prod.snd) s
  | .unordered => chain List.eraseDups (children.map fun child => scene.anywhere s child.2) s
  | .any => if children.isEmpty then [s] else accumulated (children.map Prod.snd) s
  | .optional =>
    let found := accumulated (children.map Prod.snd) s
    if found.isEmpty then [s] else found
  | .exact =>
    let queries := children.map Prod.fst
    let parts := children.zip (true :: queries.map Query.isPrimitive)
    let found := chain List.eraseDups (parts.map fun part =>
      scene.covering (part.2 && part.1.1.isSingle) part.1.2) s
    if Query.endsClosed queries then found.filter (·.cursor.isNone) else found

mutual

def find : Query → Find
  | .single f nested => fun s =>
    (scene.candidates f s).items.flatMap fun id =>
      if scene.accepts f s id then
        scene.below f (f.capture.isSome || nested.hasCaptures) (find nested) s id
      else []
  | .container mode children => scene.findContainer mode (findAll children)

def findAll : List Query → List (Query × Find)
  | [] => []
  | q :: qs => (q, find q) :: findAll qs

end

theorem findAll_eq_map (qs : List Query) :
    scene.findAll qs = qs.map fun q => (q, scene.find q) := by
  induction qs with
  | nil => rfl
  | cons q qs ih => rw [findAll, ih, List.map_cons]

theorem results_eq_find (q : Query) : scene.results q = scene.find q := by
  induction q with
  | single f nested ih =>
    funext s
    rw [results_single, find, ih, Query.hasCaptures]
  | container mode children ih =>
    have hfind : children.map scene.results = children.map scene.find := List.map_congr_left ih
    funext s
    rw [find, findAll_eq_map]
    cases mode with
    | ordered => simp [results_ordered, findContainer, hfind, Function.comp_def]
    | unordered =>
      simp only [results_unordered, findContainer, List.map_map, Function.comp_def]
      rw [List.map_congr_left fun q hq => congrArg (scene.anywhere s) (ih q hq)]
    | any => simp [results_any, findContainer, hfind, Function.comp_def]
    | optional => simp [results_optional, findContainer, hfind, Function.comp_def]
    | exact =>
      have hstretch : ∀ part ∈ Query.stretches children, scene.stretch part =
          scene.covering (part.2 && part.1.isSingle) (scene.find part.1) := by
        intro part hpart
        rw [stretch, ih part.1 (Query.mem_of_mem_stretches hpart)]
      simp only [results_exact, findContainer, List.map_map, Function.comp_def, List.map_id',
        List.zip_map_left]
      rw [List.map_congr_left hstretch]
      rfl

theorem mem_evaluate_iff {q : Query} {s r : State} :
    r ∈ (scene.evaluate q s).items ↔ r ∈ scene.find q s := by
  rw [← results_eq_find]
  rfl

end Scene

end TreeQuery
