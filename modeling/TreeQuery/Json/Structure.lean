import TreeQuery.Json.Text

/-! What surrounds values: blanks, words, and the brackets, commas and colons of lists and objects.
The readers of lists and objects take a bound on the number of entries; the length of the whole
text always suffices, as every entry takes at least one character. -/

namespace TreeQuery

namespace Json

def isBlank (c : Char) : Bool := c == ' ' || c == '\n' || c == '\t' || c == '\r'

def skipBlank (cs : List Char) : List Char := cs.dropWhile isBlank

def word : List Char → List Char → Except Fault (List Char)
  | [], cs => .ok cs
  | _ :: _, [] => .error .truncated
  | w :: ws, c :: cs => if c = w then word ws cs else .error .malformed

/-- What comes next in a list or an object. -/
inductive Next where
  | entry (rest : List Char)
  /-- The end, with the text after the bracket. -/
  | close (rest : List Char)

/-- The next item of a list; all but the first stand after a comma. -/
def nextItem (first : Bool) (cs : List Char) : Except Fault Next :=
  match skipBlank cs with
  | [] => .error .truncated
  | ']' :: rest => .ok (.close rest)
  | c :: rest =>
    if first then .ok (.entry (c :: rest))
    else if c = ',' then
      match skipBlank rest with
      | [] => .error .truncated
      | ']' :: _ => .error .malformed
      | rest => .ok (.entry rest)
    else .error .malformed

/-- The next member of an object, from after the opening quote of its name. -/
def nextMember (first : Bool) (cs : List Char) : Except Fault Next :=
  match skipBlank cs with
  | [] => .error .truncated
  | '\x7d' :: rest => .ok (.close rest)
  | c :: rest =>
    if first then
      if c = '"' then .ok (.entry rest) else .error .malformed
    else if c = ',' then
      match skipBlank rest with
      | [] => .error .truncated
      | '"' :: rest => .ok (.entry rest)
      | _ => .error .malformed
    else .error .malformed

def colon (cs : List Char) : Except Fault (List Char) :=
  match skipBlank cs with
  | [] => .error .truncated
  | ':' :: rest => .ok rest
  | _ => .error .malformed

/-- The items of a list after its opening bracket. -/
def items {α : Type} (item : Reader α) : (bound : Nat) → (first : Bool) → Reader (List α)
  | 0, _, _ => .error .malformed
  | bound + 1, first, cs => do
    match ← nextItem first cs with
    | .close rest => return ([], rest)
    | .entry rest =>
      let (a, rest) ← item rest
      let (as, rest) ← items item bound false rest
      return (a :: as, rest)

/-- The members of an object after its opening brace, folded from the left. `entry` reads on from
the end of a name; `paired` is as for texts. -/
def members {σ : Type} (paired : Bool) (entry : σ → String → Reader σ) :
    (bound : Nat) → (first : Bool) → σ → Reader σ
  | 0, _, _, _ => .error .malformed
  | bound + 1, first, acc, cs => do
    match ← nextMember first cs with
    | .close rest => return (acc, rest)
    | .entry rest =>
      let (name, rest) ← text paired rest
      let (acc, rest) ← entry acc name rest
      members paired entry bound false acc rest

/-- Reads a whole text: nothing but blanks may follow. -/
def whole {α : Type} (reader : Reader α) (cs : List Char) : Except Fault α := do
  let (a, rest) ← reader cs
  match skipBlank rest with
  | [] => return a
  | _ => throw .malformed

end Json

end TreeQuery
