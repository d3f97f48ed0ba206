import TreeQuery.Json.Writer
import TreeQuery.Query

/-! The short form of queries, such as `root{exact[>a@X, b(v="1"), optional[c]]}`: a direct
filter starts with `>`, the type or `_` follows, then the properties in parentheses, the capture
name and the nested query in braces unless it is empty. How the values of properties are displayed
is not laid down here. -/

namespace TreeQuery

section Write

variable (display : Value → String)

namespace Filter

def writeEntry (e : String × Value) (rest : List Char) : List Char :=
  e.1.toList ++ '=' :: ((display e.2).toList ++ rest)

def writeProperties : List (String × Value) → List Char → List Char
  | [], rest => rest
  | [e], rest => writeEntry display e rest
  | e :: entries, rest => writeEntry display e (',' :: ' ' :: writeProperties entries rest)

def write (f : Filter) (rest : List Char) : List Char :=
  let fromCapture := match f.capture with
    | some name => '@' :: (name.toList ++ rest)
    | none => rest
  let fromProperties := match f.properties with
    | some ps => '(' :: writeProperties display ps.entries (')' :: fromCapture)
    | none => fromCapture
  let fromType := match f.type with
    | some type => type.toList ++ fromProperties
    | none => '_' :: fromProperties
  if f.direct then '>' :: fromType else fromType

end Filter

namespace Query

mutual

def write : Query → List Char → List Char
  | single f nested, rest =>
    f.write display
      (if nested.isTrivial then rest else '\x7b' :: nested.write ('\x7d' :: rest))
  | container mode children, rest =>
    mode.name.toList ++ '[' :: writeAll children (']' :: rest)

def writeAll : List Query → List Char → List Char
  | [], rest => rest
  | [q], rest => q.write rest
  | q :: qs, rest => q.write (',' :: ' ' :: writeAll qs rest)

end

def toTextWith (q : Query) : String := String.ofList (q.write display [])

end Query

end Write

/-- Values are displayed as JSON. -/
def Query.toText (q : Query) : String := q.toTextWith Value.toText

end TreeQuery
