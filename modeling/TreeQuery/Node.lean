import TreeQuery.Properties
import TreeQuery.Tree

/-! Owned nodes: a type, properties and ordered children. -/

namespace TreeQuery

/-- What a node is by itself, without its children. -/
structure Element where
  type : String
  properties : Properties
deriving Inhabited

def Element.same (a b : Element) : Bool := a.type == b.type && a.properties.same b.properties

abbrev Node := Tree Element

namespace Node

def ofType (type : String) : Node := .node ⟨type, .empty⟩ []

def type (n : Node) : String := n.label.type

def properties (n : Node) : Properties := n.label.properties

def setProperty (n : Node) (name : String) (value : Value) : Node :=
  .node { n.label with properties := n.properties.insert name value } n.children

def addChildren (n : Node) (children : List Node) : Node :=
  .node n.label (n.children ++ children)

mutual

/-- The same types, properties and children at every level; only properties have no order. -/
def same : Node → Node → Bool
  | .node a ts, .node b us => a.same b && sameAll ts us

def sameAll : List Node → List Node → Bool
  | [], [] => true
  | t :: ts, u :: us => same t u && sameAll ts us
  | _, _ => false

end

end Node

end TreeQuery
