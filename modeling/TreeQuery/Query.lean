import TreeQuery.Properties
import TreeQuery.Query.Mode

/-! Queries: what is asked of one node, with a query for the nodes below it, and containers of
queries for several nodes of one scope. -/

namespace TreeQuery

structure Filter where
  /-- Any type if absent. -/
  type : Option String := none
  properties : Option Properties := none
  /-- Only direct children of the scope are candidates. -/
  direct : Bool := false
  capture : Option String := none
deriving Inhabited

namespace Filter

/-- Asks for a property; the last value given for a name counts. -/
def require (f : Filter) (name : String) (value : Value) : Filter :=
  { f with properties := some ((f.properties.getD .empty).insert name value) }

def sameProperties : Option Properties → Option Properties → Bool
  | none, none => true
  | some ps, some qs => ps.same qs
  | _, _ => false

def same (f g : Filter) : Bool :=
  f.type == g.type && sameProperties f.properties g.properties && f.direct == g.direct &&
    f.capture == g.capture

end Filter

inductive Query where
  | single (filter : Filter) (nested : Query)
  | container (mode : Mode) (children : List Query)

namespace Query

/-- Matches everywhere and consumes nothing. -/
def empty : Query := container .ordered []

instance : Inhabited Query := ⟨empty⟩

def leaf (f : Filter) : Query := single f empty

def containerNamed (mode : String) (children : List Query) : Except UnknownMode Query := do
  return container (← Mode.ofName mode) children

mutual

def hasCaptures : Query → Bool
  | single f nested => f.capture.isSome || nested.hasCaptures
  | container _ children => anyCaptures children

def anyCaptures : List Query → Bool
  | [] => false
  | q :: qs => q.hasCaptures || anyCaptures qs

end

def isSingle : Query → Bool
  | single _ _ => true
  | container _ _ => false

/-- Primitive queries consume a fixed stretch of siblings. -/
def isPrimitive : Query → Bool
  | single _ _ => true
  | container mode _ => mode == .exact

def isTrivial : Query → Bool
  | container .ordered [] => true
  | _ => false

mutual

/-- The same query in all its parts; the properties asked for have no order. -/
def same : Query → Query → Bool
  | single f q, single g r => f.same g && q.same r
  | container m qs, container n rs => m == n && sameAll qs rs
  | _, _ => false

def sameAll : List Query → List Query → Bool
  | [], [] => true
  | q :: qs, r :: rs => q.same r && sameAll qs rs
  | _, _ => false

end

end Query

end TreeQuery
