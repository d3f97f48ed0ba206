import TreeQuery.Matcher

/-! Evaluation with shared cells. A search is a stream that is pulled for one item at a time, and
what streams share lies in cells: the buffers of replays and the tables of memos. A cell is held
while something goes on inside it, and to come to it again meanwhile is a fault. Pulls are bounded
by nothing but their fuel. -/

namespace TreeQuery

namespace Cells

inductive Fault where
  /-- A buffer was read while it was pulling its own source. -/
  | bufferHeld
  /-- A table was asked while an entry was made for it. -/
  | tableHeld
  /-- Too many nodes for a linked tree. -/
  | tooMany
  | dangling
  | outside
deriving DecidableEq

inductive Outcome (α : Type) where
  | finished (a : α)
  | failed (fault : Fault)
  | unfinished

namespace Outcome

variable {α β : Type}

def bind (o : Outcome α) (f : α → Outcome β) : Outcome β :=
  match o with
  | finished a => f a
  | failed fault => failed fault
  | unfinished => unfinished

end Outcome

/-- The use a container makes of a child: it is searched from the key of each state, and `emit`
makes the state that follows, if any. -/
structure Call where
  query : Query
  table : Option Nat
  key : State → State
  emit : State → State → Option State

inductive Stream where
  | done
  | once (item : State)
  /-- Has read that many items of a buffer. -/
  | reader (buffer position : Nat)
  | chain (front back : Stream)
  | filterMap (f : State → Option State) (source : Stream)
  /-- What the call finds from each item of the source, `front` from the last one. -/
  | flatMap (call : Call) (front source : Stream)
  | distinct (seen : Std.HashSet State) (source : Stream)
  | orElse (fallback : Option State) (source : Stream)
  | first (source : Stream)
  /-- The candidates from `next` on, `front` what was found at the last one. -/
  | single (filter : Filter) (nested : Query) (captures : Bool) (start : State) (next : Option Nat)
    (front : Stream)

structure Buffer where
  replay : Replay Stream State
  held : Bool := false

/-- The entries are buffers. -/
structure Table where
  entries : Std.HashMap State Nat := ∅
  held : Bool := false

/-- The cells that have been made, and what has been noted so far. -/
structure Heap where
  buffers : Array Buffer := #[]
  tables : Array Table := #[]
  log : List Event := []

namespace Heap

def newBuffer (h : Heap) (source : Stream) : Nat × Heap :=
  (h.buffers.size, { h with buffers := h.buffers.push { replay := .ofSource source } })

def newTable (h : Heap) : Nat × Heap := (h.tables.size, { h with tables := h.tables.push {} })

def setBuffer (h : Heap) (b : Nat) (buffer : Buffer) : Heap :=
  { h with buffers := h.buffers.setIfInBounds b buffer }

def setTable (h : Heap) (t : Nat) (table : Table) : Heap :=
  { h with tables := h.tables.setIfInBounds t table }

/-- Notes an event if notes are wanted. -/
def noteIf (h : Heap) (wanted : Bool) (event : Event) : Heap :=
  if wanted then { h with log := h.log ++ [event] } else h

end Heap

structure Answer where
  item : Option State
  rest : Stream
  heap : Heap

section Evaluate

variable (scene : Scene)

/-- The places of the state are places of the tree. -/
def inside (s : State) : Bool :=
  decide (s.root < scene.tree.size) && s.cursor.all fun c => decide (c < scene.tree.size)

def firstCandidate (f : Filter) (s : State) : Option Nat :=
  if f.direct then s.aligned? scene.tree else s.cursor

def nextCandidate (f : Filter) (s : State) (id : Nat) : Option Nat :=
  if f.direct then scene.tree.directNeighbor? id else scene.tree.nextWithin? id s.root

/-- What a single query makes of the results below an accepted candidate. They only differ in their
bindings. -/
def atCandidate (captures : Bool) (s : State) (id : Nat) (found : Stream) : Stream :=
  let bound := Stream.filterMap
    (fun r => some ((s.past scene.tree id).withBindings r.bindings)) found
  if captures then .distinct ∅ bound else .first bound

def step (child : Query) (key : State → State) (emit : State → State → Option State)
    (running : Stream) (h : Heap) : Stream × Heap :=
  if scene.memoize then
    let (t, h) := h.newTable
    (.distinct ∅ (.flatMap ⟨child, some t, key, emit⟩ .done running), h)
  else (.distinct ∅ (.flatMap ⟨child, none, key, emit⟩ .done running), h)

def ordered (children : List Query) (s : State) (h : Heap) : Stream × Heap :=
  children.foldl (fun run child => step scene child id (fun _ found => some found) run.1 run.2)
    (.once s, h)

def unordered (children : List Query) (s : State) (h : Heap) : Stream × Heap :=
  children.foldl
    (fun run child =>
      step scene child (·.startAt s) (fun before found => some (found.notBefore scene.tree before))
        run.1 run.2)
    (.once s, h)

/-- What one more child finds from the start and from what was found so far. -/
def extended (s : State) (found : Nat) (child : Query) : Stream :=
  let seeds := Stream.filterMap (fun seed => some (seed.startAt s))
    (.chain (.once s) (.reader found 0))
  .flatMap ⟨child, none, id, fun _ r => some r⟩ .done (.distinct ∅ seeds)

def widened (s : State) (found : Nat) (child : Query) : Stream :=
  .distinct ∅ (.chain (.reader found 0) (extended s found child))

def any (optional : Bool) (children : List Query) (s : State) (h : Heap) : Stream × Heap :=
  if children.isEmpty then (.once s, h)
  else
    let (found, h) :=
      children.foldl (fun last child => last.2.newBuffer (widened s last.1 child))
        (h.newBuffer .done)
    (.orElse (if optional then some s else none) (.reader found 0), h)

structure Progress where
  running : Stream
  heap : Heap
  closed : Bool := true

def advance (progress : Progress) (child : Query) : Progress :=
  let (running, heap) :=
    if progress.closed && child.isSingle then
      step scene child id
        (fun before found =>
          let found := found.align scene.tree
          if found.cursor = before.cursor.bind scene.tree.directNeighbor? then some found else none)
        (.filterMap (fun s => if s.cursor.isSome then some s else none) progress.running)
        progress.heap
    else
      step scene child id (fun _ found => some (found.align scene.tree)) progress.running
        progress.heap
  { running, heap, closed := child.isPrimitive }

def exact (children : List Query) (s : State) (h : Heap) : Stream × Heap :=
  let progress := children.foldl (advance scene) { running := .once s, heap := h }
  if progress.closed then
    (.filterMap (fun found => if found.cursor.isNone then some found else none) progress.running,
      progress.heap)
  else (progress.running, progress.heap)

/-- The stream of a query. Cells are made for it, but nothing is pulled. -/
def build (q : Query) (s : State) (h : Heap) : Stream × Heap :=
  match q with
  | .single f nested => (.single f nested q.hasCaptures s (firstCandidate scene f s) .done, h)
  | .container .ordered children => ordered scene children s h
  | .container .unordered children => unordered scene children s h
  | .container .any children => any false children s h
  | .container .optional children => any true children s h
  | .container .exact children => exact scene children s h

def evaluate (q : Query) (s : State) (h : Heap) : Outcome (Stream × Heap) :=
  if inside scene s then .finished (build scene q s h) else .failed .outside

/-- What the call finds from a state. A look-up is noted first, and the table is held until its new
entry is made. -/
def Call.ask (call : Call) (s : State) (h : Heap) : Outcome (Stream × Heap) :=
  match call.table with
  | none =>
    (evaluate scene call.query (call.key s) h).bind fun (found, h) =>
      .finished (.filterMap (call.emit s) found, h)
  | some t =>
    match h.tables[t]? with
    | none => .failed .dangling
    | some table =>
      if table.held then .failed .tableHeld
      else
        match table.entries[call.key s]? with
        | some b =>
          .finished (.filterMap (call.emit s) (.reader b 0),
            h.noteIf scene.traced (.lookup call.query true))
        | none =>
          let h := (h.noteIf scene.traced (.lookup call.query false)).setTable t
            { table with held := true }
          (evaluate scene call.query (call.key s) h).bind fun (found, h) =>
            let (b, h) := h.newBuffer found
            .finished (.filterMap (call.emit s) (.reader b 0),
              h.setTable t { table with entries := table.entries.insert (call.key s) b })

/-- Asks a stream for its next item. A buffer is held while its source is pulled. -/
def pull : (fuel : Nat) → Stream → Heap → Outcome Answer
  | 0, _, _ => .unfinished
  | fuel + 1, stream, h =>
    match stream with
    | .done => .finished ⟨none, .done, h⟩
    | .once s => .finished ⟨some s, .done, h⟩
    | .reader b position =>
      match h.buffers[b]? with
      | none => .failed .dangling
      | some buffer =>
        if buffer.held then .failed .bufferHeld
        else
          match buffer.replay.items[position]?, buffer.replay.source with
          | some s, _ => .finished ⟨some s, .reader b (position + 1), h⟩
          | none, none => .finished ⟨none, .reader b position, h⟩
          | none, some source =>
            (pull fuel source (h.setBuffer b { buffer with held := true })).bind fun asked =>
              match asked.item with
              | some s =>
                .finished ⟨some s, .reader b (position + 1),
                  asked.heap.setBuffer b ⟨⟨some asked.rest, buffer.replay.items.push s⟩, false⟩⟩
              | none =>
                .finished ⟨none, .reader b position,
                  asked.heap.setBuffer b ⟨⟨none, buffer.replay.items⟩, false⟩⟩
    | .chain front back =>
      (pull fuel front h).bind fun asked =>
        match asked.item with
        | some s => .finished ⟨some s, .chain asked.rest back, asked.heap⟩
        | none => pull fuel back asked.heap
    | .filterMap f source =>
      (pull fuel source h).bind fun asked =>
        match asked.item with
        | none => .finished ⟨none, .filterMap f asked.rest, asked.heap⟩
        | some s =>
          if inside scene s then
            match f s with
            | some r => .finished ⟨some r, .filterMap f asked.rest, asked.heap⟩
            | none => pull fuel (.filterMap f asked.rest) asked.heap
          else .failed .outside
    | .flatMap call front source =>
      (pull fuel front h).bind fun asked =>
        match asked.item with
        | some r => .finished ⟨some r, .flatMap call asked.rest source, asked.heap⟩
        | none =>
          (pull fuel source asked.heap).bind fun asked =>
            match asked.item with
            | none => .finished ⟨none, .flatMap call .done .done, asked.heap⟩
            | some s =>
              if inside scene s then
                (call.ask scene s asked.heap).bind fun (front, h) =>
                  pull fuel (.flatMap call front asked.rest) h
              else .failed .outside
    | .distinct seen source =>
      (pull fuel source h).bind fun asked =>
        match asked.item with
        | none => .finished ⟨none, .distinct seen asked.rest, asked.heap⟩
        | some s =>
          if seen.contains s then pull fuel (.distinct seen asked.rest) asked.heap
          else .finished ⟨some s, .distinct (seen.insert s) asked.rest, asked.heap⟩
    | .orElse fallback source =>
      (pull fuel source h).bind fun asked =>
        match asked.item with
        | some s => .finished ⟨some s, .orElse none asked.rest, asked.heap⟩
        | none => .finished ⟨fallback, .orElse none asked.rest, asked.heap⟩
    | .first source =>
      (pull fuel source h).bind fun asked => .finished ⟨asked.item, .done, asked.heap⟩
    | .single f nested captures s next front =>
      (pull fuel front h).bind fun asked =>
        match asked.item, next with
        | some r, _ => .finished ⟨some r, .single f nested captures s next asked.rest, asked.heap⟩
        | none, none => .finished ⟨none, .single f nested captures s none .done, asked.heap⟩
        | none, some id =>
          let next := nextCandidate scene f s id
          if id < scene.tree.size then
            let accepted := scene.accepts f s id
            let h := asked.heap.noteIf scene.traced
              (.candidate f (scene.type (scene.tree.node id)) (scene.tree.path id) accepted)
            if accepted then
              (evaluate scene nested (s.enter scene.tree f.capture id) h).bind fun (found, h) =>
                pull fuel
                  (.single f nested captures s next (atCandidate scene captures s id found)) h
            else pull fuel (.single f nested captures s next .done) h
          else .failed .outside

end Evaluate

structure Run where
  waiting : List Nat
  /-- The tree of the target being searched, with the cells made for it. -/
  current : Option (LinkedTree × Stream × Heap) := none
  seen : Std.HashSet Bindings := ∅
  /-- What was noted before that target. -/
  log : List Event := []

/-- All that has been noted. -/
def Run.noted (run : Run) : List Event :=
  match run.current with
  | none => run.log
  | some (_, _, heap) => heap.log

end Cells

namespace Matcher

open Cells

variable (m : Matcher) (q : Query) (s : Subject)

def startRun : Run := { waiting := s.targets 0 }

def pullRun : (fuel : Nat) → Run → Outcome (Option Bindings × Run)
  | 0, _ => .unfinished
  | fuel + 1, run =>
    match run.current, run.waiting with
    | some (tree, stream, heap), _ =>
      (pull (m.scene s tree) fuel stream heap).bind fun asked =>
        match asked.item with
        | none => pullRun fuel { run with current := none, log := asked.heap.log }
        | some r =>
          if run.seen.contains r.bindings then
            pullRun fuel { run with current := some (tree, asked.rest, asked.heap) }
          else
            let heap := asked.heap.noteIf m.traced (foundEvent s r.bindings)
            .finished (some r.bindings,
              { run with current := some (tree, asked.rest, heap)
                         seen := run.seen.insert r.bindings })
    | none, [] => .finished (none, run)
    | none, node :: waiting =>
      match s.tree? node with
      | none => pullRun fuel { run with waiting }
      | some t =>
        match LinkedTree.build? t with
        | none => .failed .tooMany
        | some tree =>
          (evaluate (m.scene s tree) q (.initial tree) { log := run.log }).bind
            fun (stream, heap) =>
              pullRun fuel { run with waiting, current := some (tree, stream, heap) }

/-- Pulls a run that many times, and goes on after it has ended. -/
def pullsRun (fuel : Nat) : (count : Nat) → Run → Outcome (List (Option Bindings))
  | 0, _ => .finished []
  | count + 1, run =>
    (m.pullRun q s fuel run).bind fun (item, run) =>
      (pullsRun fuel count run).bind fun items => .finished (item :: items)

/-- Each pull with what is noted in it. -/
def notedPullsRun (fuel : Nat) : (count : Nat) → Run → Outcome (List (List Event × Option Bindings))
  | 0, _ => .finished []
  | count + 1, run =>
    (m.pullRun q s fuel run).bind fun (item, run') =>
      (notedPullsRun fuel count run').bind fun pulls =>
        .finished ((run'.noted.drop run.noted.length, item) :: pulls)

end Matcher

end TreeQuery
