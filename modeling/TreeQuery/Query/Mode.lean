import TreeQuery.Json.Value
import TreeQuery.Json.Writer

/-! The disciplines by which a container matches its children. -/

namespace TreeQuery

inductive Mode where
  /-- Every child matches, each no earlier than the one before it ended. -/
  | ordered
  /-- Every child matches somewhere in the scope. -/
  | unordered
  /-- At least one child matches. -/
  | any
  /-- Any number of children match, also none. -/
  | optional
  /-- The children match all the siblings, with nothing left over. -/
  | exact
deriving DecidableEq, Inhabited

structure UnknownMode where
  name : String

def UnknownMode.message (e : UnknownMode) : String :=
  "unknown container mode `" ++ e.name ++
    "` (expected one of: ordered, unordered, any, optional, exact)"

namespace Mode

def all : List Mode := [.ordered, .unordered, .any, .optional, .exact]

def name : Mode → String
  | ordered => "ordered"
  | unordered => "unordered"
  | any => "any"
  | optional => "optional"
  | exact => "exact"

def position (m : Mode) : Nat := all.idxOf m

def ofName? (name : String) : Option Mode := all.find? fun m => m.name == name

def ofName (name : String) : Except UnknownMode Mode :=
  match ofName? name with
  | some m => .ok m
  | none => .error ⟨name⟩

def toText (m : Mode) : String := String.ofList (Json.quote Json.escape m.name [])

theorem ofName?_name (m : Mode) : ofName? m.name = some m := by
  cases m <;> decide

end Mode

namespace Json

def modeNamed (name : String) : Except Fault Mode :=
  match Mode.ofName? name with
  | some m => .ok m
  | none => .error (.mismatch (.unknownMode name))

def unitValue (cs : List Char) : Except Fault (List Char) :=
  match skipBlank cs with
  | 'n' :: rest => word ['u', 'l', 'l'] rest
  | _ => .error (unexpected .unit cs)

/-- A mode is its quoted name, or an object with that name and `null`. -/
def mode : Reader Mode := fun cs => do
  match skipBlank cs with
  | [] => throw .truncated
  | '"' :: rest =>
    let (name, rest) ← text true rest
    return (← modeNamed name, rest)
  | '\x7b' :: rest =>
    match skipBlank rest with
    | '"' :: rest =>
      let (name, rest) ← text true rest
      let m ← modeNamed name
      let rest ← unitValue (← colon rest)
      match skipBlank rest with
      | [] => throw .truncated
      | '\x7d' :: rest => return (m, rest)
      | _ => throw .malformed
    | _ => throw (unexpected .variant rest)
  | _ => throw .malformed

def readMode (s : String) : Except Fault Mode := whole mode s.toList

end Json

end TreeQuery
