import TreeQuery.Json.Value
import TreeQuery.Json.Writer
import TreeQuery.Node

/-! Nodes as JSON. A node is written as an object with a type and, where they are not empty, its
properties and its children. It is read from such an object, or from a list of the three parts, of
which the last ones may be left out. -/

namespace TreeQuery

namespace Node

/-- What stands in a node's object, its children being given as they are written. -/
def members (e : Element) (children : List Value) : List (String × Value) :=
  ("type", .text e.type) ::
    ((if e.properties.isEmpty then [] else [("properties", .object e.properties.entries)]) ++
      if children.isEmpty then [] else [("children", .array children)])

mutual

/-- The value that is written for a node, its fields in the order of the text. -/
def document : Node → Value
  | .node e ts => .object (members e (documents ts))

def documents : List Node → List Value
  | [] => []
  | t :: ts => document t :: documents ts

end

def toText (n : Node) : String := n.document.toText

end Node

namespace Json

structure NodeDraft where
  type : Option String := none
  properties : Option Properties := none
  children : Option (List Node) := none

def NodeDraft.finish (d : NodeDraft) : Except Fault Node :=
  match d.type with
  | none => .error (.mismatch .missingType)
  | some type => .ok (.node ⟨type, d.properties.getD .empty⟩ (d.children.getD []))

def typeText : Reader String := fun cs =>
  match skipBlank cs with
  | '"' :: rest => text true rest
  | _ => .error (unexpected .text cs)

def addProperty (value : Reader Value) (ps : Properties) (name : String) : Reader Properties :=
  fun cs => do
    let (v, rest) ← value (← colon cs)
    return (ps.insert name v, rest)

def properties (bound depth : Nat) : Reader Properties := fun cs =>
  match skipBlank cs with
  | '\x7b' :: rest =>
    match depth with
    | 0 => .error .malformed
    | depth + 1 => members true (addProperty (value insertField bound depth)) bound true .empty rest
  | _ => .error (unexpected .map cs)

/-- The children, which `list` reads once their bracket is open. -/
def childList (list : Reader (List Node)) : Reader (List Node) := fun cs =>
  match skipBlank cs with
  | '[' :: rest => list rest
  | _ => .error (unexpected .sequence cs)

/-- One member of a node's object. A field that comes twice is refused at its name; members of
other names are skipped. -/
def nodeMember (bound depth : Nat) (list : Reader (List Node)) (d : NodeDraft) (name : String) :
    Reader NodeDraft := fun cs => do
  if name = "type" then
    if d.type.isSome then throw (.mismatch (.duplicateField name))
    let (type, rest) ← typeText (← colon cs)
    return ({ d with type }, rest)
  else if name = "properties" then
    if d.properties.isSome then throw (.mismatch (.duplicateField name))
    let (ps, rest) ← properties bound depth (← colon cs)
    return ({ d with properties := some ps }, rest)
  else if name = "children" then
    if d.children.isSome then throw (.mismatch (.duplicateField name))
    let (ts, rest) ← childList list (← colon cs)
    return ({ d with children := some ts }, rest)
  else
    let ((), rest) ← skipValue bound bound (← colon cs)
    return (d, rest)

def closeList (cs : List Char) : Except Fault (List Char) :=
  match skipBlank cs with
  | [] => .error .truncated
  | ']' :: rest => .ok rest
  | _ => .error .malformed

/-- A node as a list of its parts, after the opening bracket. -/
def nodeParts (bound depth : Nat) (list : Reader (List Node)) : Reader Node := fun cs => do
  match ← nextItem true cs with
  | .close _ => throw (.mismatch .noElements)
  | .entry cs =>
    let (type, cs) ← typeText cs
    match ← nextItem false cs with
    | .close rest => return (.node ⟨type, .empty⟩ [], rest)
    | .entry cs =>
      let (ps, cs) ← properties bound depth cs
      match ← nextItem false cs with
      | .close rest => return (.node ⟨type, ps⟩ [], rest)
      | .entry cs =>
        let (ts, cs) ← childList list cs
        return (.node ⟨type, ps⟩ ts, ← closeList cs)

/-- A node that may open brackets; `depth` counts those that may be open inside its own. -/
def openNode (bound depth : Nat) (list : Reader (List Node)) : Reader Node := fun cs =>
  match skipBlank cs with
  | '\x7b' :: rest => do
    let (draft, rest) ← members true (nodeMember bound depth list) bound true {} rest
    return (← draft.finish, rest)
  | '[' :: rest => nodeParts bound depth list rest
  | _ => .error (unexpected .node cs)

/-- Reads a node while at most `depth` more brackets are open. -/
def node (bound : Nat) : (depth : Nat) → Reader Node
  | 0, cs =>
    match skipBlank cs with
    | '\x7b' :: _ => .error .malformed
    | '[' :: _ => .error .malformed
    | _ => .error (unexpected .node cs)
  | 1, cs => openNode bound 0 (fun _ => .error .malformed) cs
  | depth + 2, cs => openNode bound (depth + 1) (items (node bound depth) bound true) cs

def readNode (s : String) : Except Fault Node :=
  let cs := s.toList
  whole (node (cs.length + 1) maxDepth) cs

end Json

end TreeQuery
