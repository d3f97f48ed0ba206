import TreeQuery.Value
import TreeQuery.Number.Notation

/-! Compact JSON text, for any spelling of the characters between the quotes. Everything is written
in front of the text that follows it. -/

namespace TreeQuery

namespace Json

/-- What stands for each character between the quotes. -/
abbrev Spelling := Char → List Char

def hexDigit (n : Nat) : Char := Nat.digitChar n

/-- Only the quote, the backslash and control characters are escaped. -/
def escape : Spelling := fun c =>
  if c = '"' then ['\\', '"']
  else if c = '\\' then ['\\', '\\']
  else if c = '\x08' then ['\\', 'b']
  else if c = '\x0c' then ['\\', 'f']
  else if c = '\n' then ['\\', 'n']
  else if c = '\r' then ['\\', 'r']
  else if c = '\t' then ['\\', 't']
  else if c.toNat < 0x20 then
    ['\\', 'u', '0', '0', hexDigit (c.toNat / 16), hexDigit (c.toNat % 16)]
  else [c]

def quote (spell : Spelling) (s : String) (rest : List Char) : List Char :=
  '"' :: (s.toList.flatMap spell ++ '"' :: rest)

/-- A name and the colon before its value. -/
def member (spell : Spelling) (name : String) (rest : List Char) : List Char :=
  quote spell name (':' :: rest)

end Json

namespace Value

section Write

variable (spell : Json.Spelling)

mutual

def write : Value → List Char → List Char
  | null, rest => 'n' :: 'u' :: 'l' :: 'l' :: rest
  | bool true, rest => 't' :: 'r' :: 'u' :: 'e' :: rest
  | bool false, rest => 'f' :: 'a' :: 'l' :: 's' :: 'e' :: rest
  | integer i, rest => intChars i ++ rest
  | float x, rest => x.chars ++ rest
  | text s, rest => Json.quote spell s rest
  | array items, rest => '[' :: writeItems items (']' :: rest)
  | object fields, rest => '\x7b' :: writeFields fields ('\x7d' :: rest)

def writeItems : List Value → List Char → List Char
  | [], rest => rest
  | [v], rest => v.write rest
  | v :: vs, rest => v.write (',' :: writeItems vs rest)

def writeFields : List (String × Value) → List Char → List Char
  | [], rest => rest
  | [(name, v)], rest => Json.member spell name (v.write rest)
  | (name, v) :: fields, rest => Json.member spell name (v.write (',' :: writeFields fields rest))

end

end Write

def toText (v : Value) : String := String.ofList (v.write Json.escape [])

end Value

end TreeQuery
