import TreeQuery.Query

/-! Queries as their constructors leave them: each part keeps whether anything in it captures, found
out from its own parts when it was made. -/

namespace TreeQuery

inductive FlaggedQuery where
  | single (filter : Filter) (nested : FlaggedQuery) (captures : Bool)
  | container (mode : Mode) (children : List FlaggedQuery) (captures : Bool)

namespace FlaggedQuery

/-- The flag of the whole. -/
def captures : FlaggedQuery → Bool
  | single _ _ captures => captures
  | container _ _ captures => captures

mutual

/-- What is asked, without the flags. -/
def query : FlaggedQuery → Query
  | single f nested _ => .single f nested.query
  | container mode children _ => .container mode (queries children)

def queries : List FlaggedQuery → List Query
  | [] => []
  | q :: qs => q.query :: queries qs

end

mutual

/-- The same query with every flag up. -/
def flagAll : FlaggedQuery → FlaggedQuery
  | single f nested _ => single f nested.flagAll true
  | container mode children _ => container mode (flagEach children) true

def flagEach : List FlaggedQuery → List FlaggedQuery
  | [] => []
  | q :: qs => q.flagAll :: flagEach qs

end

mutual

/-- The same query in all its parts, the flags included. -/
def same : FlaggedQuery → FlaggedQuery → Bool
  | single f q a, single g r b => f.same g && q.same r && a == b
  | container m qs a, container n rs b => m == n && sameAll qs rs && a == b
  | _, _ => false

def sameAll : List FlaggedQuery → List FlaggedQuery → Bool
  | [], [] => true
  | q :: qs, r :: rs => q.same r && sameAll qs rs
  | _, _ => false

end

def ofMode (mode : Mode) (children : List FlaggedQuery) : FlaggedQuery :=
  container mode children (children.any captures)

def empty : FlaggedQuery := ofMode .ordered []

end FlaggedQuery

/-- A single query that is being put together; the nested query may be given at any time. -/
structure SingleBuilder where
  filter : Filter
  nested : Option FlaggedQuery := none

namespace SingleBuilder

inductive Call where
  | property (name : String) (value : Value)
  | direct
  | capture (name : String)
  | children (q : FlaggedQuery)

def ofType (type : Option String) : SingleBuilder := { filter := { type } }

def call (b : SingleBuilder) : Call → SingleBuilder
  | .property name value => { b with filter := b.filter.require name value }
  | .direct => { b with filter := { b.filter with direct := true } }
  | .capture name => { b with filter := { b.filter with capture := some name } }
  | .children q => { b with nested := some q }

def build (b : SingleBuilder) : FlaggedQuery :=
  let nested := b.nested.getD .empty
  .single b.filter nested (b.filter.capture.isSome || nested.captures)

end SingleBuilder

/-- What can be made of constructed queries by calls on a builder, in any order, or as a
container. -/
inductive FlaggedQuery.Constructed : FlaggedQuery → Prop
  | single (type : Option String) (calls : List SingleBuilder.Call)
      (nested : ∀ q, .children q ∈ calls → Constructed q) :
      Constructed (calls.foldl SingleBuilder.call (.ofType type)).build
  | container (mode : Mode) (children : List FlaggedQuery)
      (parts : ∀ q ∈ children, Constructed q) : Constructed (.ofMode mode children)

end TreeQuery
