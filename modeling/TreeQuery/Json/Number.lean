import TreeQuery.Json.Structure
import TreeQuery.Value
import TreeQuery.Number.Scaled

/-! Reading numbers. Digits are kept while they fit 64 bits. -/

namespace TreeQuery

namespace Json

def maxSignificand : Nat := Nat.pow 2 64 - 1

def maxExponent : Nat := Nat.pow 2 31 - 1

def digitValue (c : Char) : Nat := c.toNat - '0'.toNat

/-- Takes digits into a significand as long as it stays in range; the rest are left. -/
def keepDigits : (significand : Nat) → List Char → Nat × List Char
  | n, [] => (n, [])
  | n, c :: cs =>
    let n' := n * 10 + digitValue c
    if n' ≤ maxSignificand then keepDigits n' cs else (n, c :: cs)

/-- A plain integer; minus zero and what lies below the signed range are floats. -/
def integerValue (negative : Bool) (n : Nat) : Option Value :=
  if negative then
    if n = 0 ∨ Nat.pow 2 63 < n then (Scaled.toBinary64? ⟨true, n, 0⟩).map .float
    else some (.integer (-n))
  else some (.integer n)

def floatValue (d : Scaled) : Except Fault Value :=
  match d.toBinary64? with
  | some x => .ok (.float x)
  | none => .error .malformed

def startsExponent : List Char → Bool
  | c :: _ => c == 'e' || c == 'E'
  | [] => false

/-- The rest after an optional sign, and whether that is a minus. -/
def sign : List Char → Bool × List Char
  | '+' :: cs => (false, cs)
  | '-' :: cs => (true, cs)
  | cs => (false, cs)

def exponentDigits (cs : List Char) : Except Fault (Bool × List Char × List Char) := do
  let (negative, cs) := sign cs
  match cs with
  | [] => throw .truncated
  | c :: rest =>
    if c.isDigit then return (negative, (c :: rest).span Char.isDigit) else throw .malformed

/-- What may follow the digits of a number. An exponent out of range is a fault unless the number
is zero or vanishes. -/
def scaledValue (d : Scaled) (cs : List Char) : Except Fault (Value × List Char) := do
  if startsExponent cs then
    let (negative, digits, rest) ← exponentDigits (cs.drop 1)
    let n := digits.foldl (fun n c => n * 10 + digitValue c) 0
    if maxExponent < n then
      if d.significand ≠ 0 ∧ !negative then throw .malformed
      return (.float (.zero d.negative), rest)
    let exponent := if negative then d.exponent - n else d.exponent + n
    return (← floatValue { d with exponent }, rest)
  else return (← floatValue d, cs)

def unsignedNumber (negative : Bool) (cs : List Char) : Except Fault (Value × List Char) := do
  let (whole, rest) := cs.span Char.isDigit
  match whole with
  | [] => throw (if cs.isEmpty then .truncated else .malformed)
  | '0' :: _ :: _ => throw .malformed
  | _ =>
    let (n, dropped) := keepDigits 0 whole
    match rest with
    | '.' :: rest =>
      let (fraction, rest) := rest.span Char.isDigit
      if fraction.isEmpty then throw (if rest.isEmpty then .truncated else .malformed)
      let (n, ignored) := keepDigits n fraction
      let places := fraction.length - ignored.length
      scaledValue ⟨negative, n, (dropped.length : Int) - places⟩ rest
    | rest =>
      if !dropped.isEmpty || startsExponent rest then
        scaledValue ⟨negative, n, dropped.length⟩ rest
      else
        match integerValue negative n with
        | some v => return (v, rest)
        | none => throw .malformed

def number : Reader Value
  | '-' :: cs => unsignedNumber true cs
  | cs => unsignedNumber false cs

/-- A number whose value is not wanted: a digit is required before and after a point and in an
exponent, and nothing else is checked. -/
def skipNumber (cs : List Char) : Except Fault (List Char) := do
  let cs := match cs with
    | '-' :: cs => cs
    | cs => cs
  let (whole, rest) := cs.span Char.isDigit
  let rest ← match whole, rest with
    | [], _ => throw .malformed
    | '0' :: _ :: _, _ => throw .malformed
    | _, '.' :: rest =>
      let (fraction, rest) := rest.span Char.isDigit
      if fraction.isEmpty then throw .malformed else pure rest
    | _, rest => pure rest
  if startsExponent rest then
    let (digits, rest) := (sign (rest.drop 1)).2.span Char.isDigit
    if digits.isEmpty then throw .malformed else return rest
  else return rest

end Json

end TreeQuery
