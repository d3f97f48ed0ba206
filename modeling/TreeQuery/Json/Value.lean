import TreeQuery.Json.Number

/-! Reading values. A value that is kept is checked in full and may open only so many brackets
inside one another; a value that is skipped need only be well formed. The fields of an object come
in the order of the text, and go where a function puts them. -/

namespace TreeQuery

namespace Json

/-- How many brackets may be open at a time. -/
def maxDepth : Nat := 127

section Read

variable (put : String → Value → List (String × Value) → List (String × Value))

def addField (value : Reader Value) (fields : List (String × Value)) (name : String) :
    Reader (List (String × Value)) := fun cs => do
  let (v, rest) ← value (← colon cs)
  return (put name v fields, rest)

/-- Reads a value while at most `depth` more brackets are open. -/
def value (bound : Nat) : (depth : Nat) → Reader Value
  | depth, cs =>
    match skipBlank cs with
    | [] => .error .truncated
    | c :: rest =>
      match c with
      | 'n' => return (.null, ← word ['u', 'l', 'l'] rest)
      | 't' => return (.bool true, ← word ['r', 'u', 'e'] rest)
      | 'f' => return (.bool false, ← word ['a', 'l', 's', 'e'] rest)
      | '"' => do
        let (s, rest) ← text true rest
        return (.text s, rest)
      | '[' =>
        match depth with
        | 0 => .error .malformed
        | depth + 1 => do
          let (vs, rest) ← items (value bound depth) bound true rest
          return (.array vs, rest)
      | '\x7b' =>
        match depth with
        | 0 => .error .malformed
        | depth + 1 => do
          let (fields, rest) ←
            members true (addField put (value bound depth)) bound true [] rest
          return (.object fields, rest)
      | c => if c = '-' ∨ c.isDigit then number (c :: rest) else .error .malformed

/-- The value that makes up a text, if brackets nest at most `depth` deep. -/
def readValueWith (depth : Nat) (s : String) : Except Fault Value :=
  let cs := s.toList
  whole (value put (cs.length + 1) depth) cs

end Read

/-- Fields are kept in the order of their names. -/
def readValue (depth : Nat) (s : String) : Except Fault Value := readValueWith insertField depth s

def skipValue (bound : Nat) : (depth : Nat) → Reader Unit
  | depth, cs =>
    match skipBlank cs with
    | [] => .error .truncated
    | c :: rest =>
      match c with
      | 'n' => return ((), ← word ['u', 'l', 'l'] rest)
      | 't' => return ((), ← word ['r', 'u', 'e'] rest)
      | 'f' => return ((), ← word ['a', 'l', 's', 'e'] rest)
      | '"' => do
        let (_, rest) ← text false rest
        return ((), rest)
      | '[' =>
        match depth with
        | 0 => .error .malformed
        | depth + 1 => do
          let (_, rest) ← items (skipValue bound depth) bound true rest
          return ((), rest)
      | '\x7b' =>
        match depth with
        | 0 => .error .malformed
        | depth + 1 => do
          members false (fun _ _ cs => do skipValue bound depth (← colon cs)) bound true () rest
      | c =>
        if c = '-' ∨ c.isDigit then return ((), ← skipNumber (c :: rest))
        else .error .malformed

/-- The fault of a value that is not what was asked for; the value is read first if it is a word, a
number or a text. -/
def unexpected (expected : Expected) (cs : List Char) : Fault :=
  let found (f : Found) : Fault := .mismatch (.unexpected f expected)
  let after {α : Type} (read : Except Fault α) (f : α → Found) : Fault :=
    match read with
    | .ok a => found (f a)
    | .error fault => fault
  match skipBlank cs with
  | [] => .truncated
  | c :: rest =>
    match c with
    | 'n' => after (word ['u', 'l', 'l'] rest) fun _ => .null
    | 't' => after (word ['r', 'u', 'e'] rest) fun _ => .bool true
    | 'f' => after (word ['a', 'l', 's', 'e'] rest) fun _ => .bool false
    | '"' => after (text true rest) fun read => .text read.1
    | '[' => found .sequence
    | '\x7b' => found .map
    | c =>
      if c = '-' ∨ c.isDigit then
        after (number (c :: rest)) fun read =>
          match read.1 with
          | .integer i => .integer i
          | .float x => .float x
          | _ => .null
      else .malformed

end Json

end TreeQuery
