import TreeQuery.Json.Fault

/-! Reading a quoted text, one character at a time. -/

namespace TreeQuery

namespace Json

inductive TextState where
  | plain
  | escape
  /-- Inside `\uXXXX`: the leading surrogate that waits for this unit, the digits still to come
  and the value of those read. -/
  | unit (lead : Option Nat) (missing : Nat) (value : Nat)
  | lead (lead : Nat)
  | leadEscape (lead : Nat)

def hexValue? (c : Char) : Option Nat :=
  if c.isDigit then some (c.toNat - '0'.toNat)
  else if 'a' ≤ c ∧ c ≤ 'f' then some (c.toNat - 'a'.toNat + 10)
  else if 'A' ≤ c ∧ c ≤ 'F' then some (c.toNat - 'A'.toNat + 10)
  else none

/-- Whether at least `count` bytes of UTF-8 are left. -/
def hasBytes (count : Nat) (cs : List Char) : Bool :=
  count ≤ (cs.take count).foldl (fun bytes c => bytes + c.utf8Size) 0

def escaped? : Char → Option Char
  | '"' => some '"'
  | '\\' => some '\\'
  | '/' => some '/'
  | 'b' => some '\x08'
  | 'f' => some '\x0c'
  | 'n' => some '\n'
  | 'r' => some '\r'
  | 't' => some '\t'
  | _ => none

def isLeading (unit : Nat) : Bool := 0xd800 ≤ unit && unit ≤ 0xdbff

def isTrailing (unit : Nat) : Bool := 0xdc00 ≤ unit && unit ≤ 0xdfff

/-- What a completed unit gives: a character, or a wait for the second half of a pair. With
`paired` off a surrogate stands for itself and is shown as a replacement character. -/
def unitStep (paired : Bool) (lead : Option Nat) (unit : Nat) :
    Except Fault (Option Char × TextState) :=
  if paired then
    match lead with
    | none =>
      if isLeading unit then .ok (none, .lead unit)
      else if isTrailing unit then .error .malformed
      else .ok (some (Char.ofNat unit), .plain)
    | some lead =>
      if isTrailing unit then
        .ok (some (Char.ofNat (0x10000 + (lead - 0xd800) * 0x400 + (unit - 0xdc00))), .plain)
      else .error .malformed
  else .ok (some (if isLeading unit || isTrailing unit then '\ufffd' else Char.ofNat unit), .plain)

/-- The character that `c` completes, if any, and where the reader stands after it. A unit is begun
only if enough text is left for its digits. -/
def textStep (paired : Bool) (c : Char) (rest : List Char) :
    TextState → Except Fault (Option Char × TextState)
  | .plain =>
    if c = '\\' then .ok (none, .escape)
    else if c.toNat < 0x20 then .error .malformed
    else .ok (some c, .plain)
  | .escape =>
    if c = 'u' then
      if hasBytes 4 rest then .ok (none, .unit none 4 0) else .error .truncated
    else
      match escaped? c with
      | some d => .ok (some d, .plain)
      | none => .error .malformed
  | .unit lead missing value =>
    match hexValue? c with
    | none => .error .malformed
    | some digit =>
      if missing ≤ 1 then unitStep paired lead (value * 16 + digit)
      else .ok (none, .unit lead (missing - 1) (value * 16 + digit))
  | .lead lead => if c = '\\' then .ok (none, .leadEscape lead) else .error .malformed
  | .leadEscape lead =>
    if c = 'u' then
      if hasBytes 4 rest then .ok (none, .unit (some lead) 4 0) else .error .truncated
    else .error .malformed

/-- The characters up to the closing quote. -/
def textFrom (paired : Bool) : TextState → List Char → Except Fault (List Char × List Char)
  | _, [] => .error .truncated
  | state, c :: rest =>
    match state, c with
    | .plain, '"' => .ok ([], rest)
    | _, _ => do
      let (char, state) ← textStep paired c rest state
      let (chars, rest) ← textFrom paired state rest
      return (char.toList ++ chars, rest)

def text (paired : Bool) (cs : List Char) : Except Fault (String × List Char) := do
  let (chars, rest) ← textFrom paired .plain cs
  return (String.ofList chars, rest)

end Json

end TreeQuery
