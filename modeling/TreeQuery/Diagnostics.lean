import TreeQuery.Json.Node
import TreeQuery.Matcher
import TreeQuery.Text.Debug

/-! Short texts that show bindings, states and settings to whoever looks for a fault. -/

namespace TreeQuery

namespace Bindings

def debug (s : Subject) (b : Bindings) : String :=
  Text.debugMap (b.entries.map fun e => (e.1, s.type e.2))

def writeEntries (s : Subject) : List (String × Nat) → List Char → List Char
  | [], rest => rest
  | (name, node) :: entries, rest =>
    let rest := if entries.isEmpty then rest else ',' :: writeEntries s entries rest
    Json.member Json.escape name (match s.node? node with
      | some n => n.document.write Json.escape rest
      | none => rest)

def toJson (s : Subject) (b : Bindings) : String :=
  String.ofList ('\x7b' :: writeEntries s b.entries ['\x7d'])

end Bindings

namespace State

def debug (s : Subject) (t : LinkedTree) (state : State) : String :=
  let shown (id : Nat) := Text.debugQuote (s.type (t.node id))
  let cursor := match state.cursor with
    | some id => "Some(" ++ shown id ++ ")"
    | none => "None"
  "MatchingState \x7b root: " ++ shown state.root ++ ", cursor: " ++ cursor ++ ", references: " ++
    state.bindings.debug s ++ " \x7d"

end State

def boolText (b : Bool) : String := if b then "true" else "false"

def MatchConfig.debug (c : MatchConfig) : String :=
  "MatchConfig \x7b replay_cache: " ++ boolText c.replayCache ++ " \x7d"

def Matcher.debug (m : Matcher) : String :=
  "Matcher \x7b config: " ++ m.config.debug ++ ", predicate: " ++ boolText m.predicate.isSome ++
    ", .. \x7d"

/-- A property test is shown by its kind only. -/
def PropertyTest.debug (_ : PropertyTest) : String := "PropertyFn"

end TreeQuery
