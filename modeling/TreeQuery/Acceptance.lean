import TreeQuery.Bindings
import TreeQuery.Query
import TreeQuery.Subject

/-! Which subject nodes pass a filter. A node kind decides about types and properties; a predicate
can take over the properties. Both may look at the captures bound so far. -/

namespace TreeQuery

abbrev PropertyTest :=
  (s : Subject) → (node : Nat) → (name : String) → (expected : Value) → Bindings → Bool

structure NodeKind where
  propertyMatches : PropertyTest
  /-- Decides about a type and about properties; what is absent is not asked for. -/
  accepts : (s : Subject) → (node : Nat) → (type : Option String) → Option Properties →
    Bindings → Bool

namespace NodeKind

/-- The node's own value is the one asked for; one that is missing counts as null. -/
def ownValue : PropertyTest := fun s n name expected _ =>
  ((s.property? n name).getD .null).same expected

/-- The types are equal and every property passes the test. -/
def acceptsBy (test : PropertyTest) (s : Subject) (n : Nat) (type : Option String)
    (properties : Option Properties) (b : Bindings) : Bool :=
  type.all (· == s.type n) && properties.all fun ps => ps.entries.all fun e => test s n e.1 e.2 b

def ofTest (test : PropertyTest) : NodeKind := ⟨test, acceptsBy test⟩

def plain : NodeKind := ofTest ownValue

/-- A missing property equals nothing; `same_as` names a capture whose node has the same `id`. -/
def relational : NodeKind := ofTest fun s n name expected b =>
  if name = "same_as" then
    match expected with
    | .text capture =>
      (b.get? capture).any fun m =>
        match s.property? m "id", s.property? n "id" with
        | some x, some y => x.same y
        | none, none => true
        | _, _ => false
    | _ => false
  else (s.property? n name).any fun v => v.same expected

/-- The type begins with the one asked for, and the properties asked for exist. -/
def startingWith : NodeKind where
  propertyMatches := ownValue
  accepts s n type properties _ :=
    type.all (fun start => start.toList.isPrefixOf (s.type n).toList) &&
      properties.all fun ps => ps.entries.all fun e => (s.property? n e.1).isSome

end NodeKind

namespace PropertyTest

def sameIgnoringCase (s t : String) : Bool :=
  s.toList.map Char.toLower == t.toList.map Char.toLower

/-- Texts are equal up to the case of ASCII letters, other values equal. -/
def ignoringCase : PropertyTest := fun s n name expected _ =>
  (s.property? n name).any fun actual =>
    match actual, expected with
    | .text a, .text e => sameIgnoringCase a e
    | _, _ => actual.same expected

/-- A text `$x` stands for the `name` of the node bound to `x`; other values for themselves. -/
def reference : PropertyTest := fun s n name expected b =>
  let wanted : Option Value :=
    match expected with
    | .text t =>
      match t.toList with
      | '$' :: capture => (b.get? (String.ofList capture)).bind (s.property? · "name")
      | _ => some expected
    | _ => some expected
  wanted.any fun v => (s.property? n name).any (·.same v)

/-- Both are signed integers, and the node's is no less. -/
def atLeast : PropertyTest := fun s n name expected _ =>
  match (s.property? n name).bind Value.toSigned?, expected.toSigned? with
  | some actual, some least => least ≤ actual
  | _, _ => false

end PropertyTest

abbrev Acceptance := Filter → (node : Nat) → Bindings → Bool

/-- The kind decides alone, or about the type only if there is a predicate for the properties. -/
def NodeKind.acceptance (kind : NodeKind) (predicate : Option PropertyTest) (s : Subject) :
    Acceptance := fun f n b =>
  match predicate with
  | none => kind.accepts s n f.type f.properties b
  | some test =>
    kind.accepts s n f.type none b &&
      f.properties.all fun ps => ps.entries.all fun e => test s n e.1 e.2 b

end TreeQuery
