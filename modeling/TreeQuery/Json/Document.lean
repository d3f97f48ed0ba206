import TreeQuery.Json.Node

/-! Documents: what a JSON text says, the fields of each object in the order of the text. A node can
be read from a document as from a text. -/

namespace TreeQuery

namespace Value

/-- What is found where something else was asked for. -/
def found : Value → Json.Found
  | null => .null
  | bool b => .bool b
  | integer i => .integer i
  | float x => .float x
  | text s => .text s
  | array _ => .sequence
  | object _ => .map

mutual

/-- The same with the fields of every object in the order of their names. -/
def sorted : Value → Value
  | array items => array (sortedAll items)
  | object fields => ofFields (sortedFields fields)
  | v => v

def sortedAll : List Value → List Value
  | [] => []
  | v :: vs => v.sorted :: sortedAll vs

def sortedFields : List (String × Value) → List (String × Value)
  | [] => []
  | (name, v) :: fields => (name, v.sorted) :: sortedFields fields

end

end Value

namespace Json

def readDocument (s : String) : Except Fault Value :=
  readValueWith (fun name v fields => fields ++ [(name, v)]) maxDepth s

end Json

namespace Node

def propertiesOf : Value → Except Json.Fault Properties
  | .object fields => .ok (.ofList (fields.map fun f => (f.1, f.2.sorted)))
  | d => .error (.mismatch (.unexpected d.found .map))

mutual

/-- The node of which this is the document. Fields of other names are passed over. -/
def ofDocument : Value → Except Json.Fault Node
  | .object fields => do (← draftOf fields {}).finish
  | d => .error (.mismatch (.unexpected d.found .node))

def draftOf : List (String × Value) → Json.NodeDraft → Except Json.Fault Json.NodeDraft
  | [], draft => .ok draft
  | (name, d) :: fields, draft => do
    if name = "type" then
      if draft.type.isSome then throw (.mismatch (.duplicateField name))
      match d with
      | .text type => draftOf fields { draft with type }
      | d => throw (.mismatch (.unexpected d.found .text))
    else if name = "properties" then
      if draft.properties.isSome then throw (.mismatch (.duplicateField name))
      draftOf fields { draft with properties := some (← propertiesOf d) }
    else if name = "children" then
      if draft.children.isSome then throw (.mismatch (.duplicateField name))
      match d with
      | .array ds => draftOf fields { draft with children := some (← ofDocuments ds) }
      | d => throw (.mismatch (.unexpected d.found .sequence))
    else draftOf fields draft

def ofDocuments : List Value → Except Json.Fault (List Node)
  | [] => .ok []
  | d :: ds => do return (← ofDocument d) :: (← ofDocuments ds)

end

end Node

end TreeQuery
