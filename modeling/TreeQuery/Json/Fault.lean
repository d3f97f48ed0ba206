import TreeQuery.Number.Notation
import TreeQuery.Text.Debug

/-! What can be wrong with a JSON text: it ends too soon, it is malformed, or it is sound so far but
holds something else than what was asked for. -/

namespace TreeQuery

namespace Json

inductive Found where
  | null
  | bool (b : Bool)
  | integer (i : Int)
  | float (x : Binary64)
  | text (s : String)
  | sequence
  | map

inductive Expected where
  | text
  | map
  | sequence
  | node
  | unit
  | variant

inductive Mismatch where
  | unexpected (found : Found) (expected : Expected)
  | missingType
  | duplicateField (name : String)
  | noElements
  | unknownMode (name : String)

inductive Fault where
  | mismatch (reason : Mismatch)
  | malformed
  | truncated

/-- Readers work from the front of a text and leave its rest. -/
abbrev Reader (α : Type) := List Char → Except Fault (α × List Char)

def Found.message : Found → String
  | null => "null"
  | bool b => "boolean `" ++ (if b then "true" else "false") ++ "`"
  | integer i => "integer `" ++ String.ofList (intChars i) ++ "`"
  | float x => "floating point `" ++ String.ofList x.chars ++ "`"
  | text s => "string " ++ Text.debugQuote s
  | sequence => "sequence"
  | map => "map"

def Expected.message : Expected → String
  | text => "a string"
  | map => "a map"
  | sequence => "a sequence"
  | node => "struct BaseNode"
  | unit => "unit"
  | variant => "variant identifier"

def Mismatch.message : Mismatch → String
  | unexpected found expected =>
    "invalid type: " ++ found.message ++ ", expected " ++ expected.message
  | missingType => "missing field `type`"
  | duplicateField name => "duplicate field `" ++ name ++ "`"
  | noElements => "invalid length 0, expected struct BaseNode with 3 elements"
  | unknownMode name => "unknown variant `" ++ name ++
      "`, expected one of `ordered`, `unordered`, `any`, `optional`, `exact`"

end Json

end TreeQuery
