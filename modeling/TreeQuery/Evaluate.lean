import TreeQuery.Acceptance
import TreeQuery.Search.Memo
import TreeQuery.State

/-! Evaluation of queries. From a state, a query finds the states just past what it can consume,
one for each way to match, with the captures bound on the way. -/

namespace TreeQuery

inductive Event where
  /-- A node of this type and place was tested. -/
  | candidate (filter : Filter) (type : String) (path : Array Nat) (accepted : Bool)
  /-- A container asked its memo for what a child finds. -/
  | lookup (query : Query) (hit : Bool)
  /-- A match was handed over, with the types of the captured nodes. -/
  | found (captures : List (String × String))

abbrev States := Search Event State

structure Scene where
  tree : LinkedTree
  type : Nat → String
  acceptance : Acceptance
  memoize : Bool := true
  /-- Whether tests and look-ups are noted. -/
  traced : Bool := true

/-- A query made ready: the states it finds from a state. -/
structure Plan where
  query : Query
  run : State → States

namespace Scene

variable (scene : Scene)

/-- A name already bound accepts only the same node again. -/
def accepts (f : Filter) (s : State) (id : Nat) : Bool :=
  let node := scene.tree.node id
  scene.acceptance f node s.bindings &&
    f.capture.all fun name => (s.bindings.get? name).all (· == node)

def candidates (f : Filter) (s : State) : Search Event Nat :=
  if f.direct then s.directChildren scene.tree else s.within scene.tree

/-- Tests the candidates in order. Below an accepted one `nested` binds its captures; without any
captures one success there stands for all. -/
def single (f : Filter) (captures : Bool) (nested : State → States) (s : State) : States :=
  (scene.candidates f s).flatMap fun id =>
    let accepted := scene.accepts f s id
    .noteIf scene.traced
      (.candidate f (scene.type (scene.tree.node id)) (scene.tree.path id) accepted) fun _ =>
        if accepted then
          let found := (nested (s.enter scene.tree f.capture id)).map State.bindings
          let found := if captures then found.distinct else found.first
          found.map (s.past scene.tree id).withBindings
        else .stop

/-- Runs a child from the key of each state; `emit` makes the state that follows, if any. -/
def step (child : Plan) (key : State → State) (emit : State → State → Option State)
    (running : States) : States :=
  if scene.memoize then
    running.flatMapMemo scene.traced (.lookup child.query) key child.run emit ∅
  else running.flatMap fun s => (child.run (key s)).filterMap (emit s)

def once (s : State) : States := .yield s fun _ => .stop

/-- Each child goes on where the one before it ended. -/
def ordered (children : List Plan) (s : State) : States :=
  children.foldl
    (fun running child => (scene.step child id (fun _ found => some found) running).distinct)
    (once s)

/-- Each child starts where the container starts; the region covered never shrinks. -/
def unordered (children : List Plan) (s : State) : States :=
  children.foldl
    (fun running child =>
      (scene.step child (·.startAt s) (fun before found => some (found.notBefore scene.tree before))
        running).distinct)
    (once s)

/-- Each child extends what has been found so far: it starts where the container starts, with no
bindings added and with those of every earlier result. -/
def extend (s : State) (found : Replay States State) (child : Plan) : Replay States State :=
  let widened := found.read some fun drained =>
    (Search.ofList (s :: drained.items.toList.map (·.startAt s))).distinct.flatMap child.run
  .ofSource widened.distinct

def any (optional : Bool) (children : List Plan) (s : State) : States :=
  if children.isEmpty then once s
  else
    ((children.foldl (extend s) (.ofSource .stop)).read some fun _ => .stop).orElse
      (if optional then some s else none)

/-- The part of an exact container that has been run, and whether it ends at a sibling. -/
structure Progress where
  running : States
  closed : Bool := true

/-- A single query after a primitive one must consume just the next sibling. -/
def advance (progress : Progress) (child : Plan) : Progress :=
  let found :=
    if progress.closed && child.query.isSingle then
      scene.step child id
        (fun before found =>
          let found := found.align scene.tree
          if found.cursor = before.cursor.bind scene.tree.directNeighbor? then some found else none)
        (progress.running.filterMap fun s => if s.cursor.isSome then some s else none)
    else scene.step child id (fun _ found => some (found.align scene.tree)) progress.running
  { running := found.distinct, closed := child.query.isPrimitive }

/-- The children cover the siblings one after the other; nothing may be left after a primitive. -/
def exact (children : List Plan) (s : State) : States :=
  let progress := children.foldl scene.advance { running := once s }
  if progress.closed then
    progress.running.filterMap fun found => if found.cursor.isNone then some found else none
  else progress.running

def container (mode : Mode) (children : List Plan) : State → States :=
  match mode with
  | .ordered => scene.ordered children
  | .unordered => scene.unordered children
  | .any => any false children
  | .optional => any true children
  | .exact => scene.exact children

mutual

def plan : Query → Plan
  | .single f nested =>
    let query := Query.single f nested
    { query, run := scene.single f query.hasCaptures (plan nested).run }
  | .container mode children =>
    { query := .container mode children, run := scene.container mode (plans children) }

def plans : List Query → List Plan
  | [] => []
  | q :: qs => plan q :: plans qs

end

def evaluate (q : Query) (s : State) : States := (scene.plan q).run s

end Scene

end TreeQuery
