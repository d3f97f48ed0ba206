import TreeQuery.Evaluate
import TreeQuery.Palette
import TreeQuery.Query.Text

/-! Traces: the events of a search as lines of text. -/

namespace TreeQuery

inductive Verbosity where
  /-- Accepted candidates and matches. -/
  | brief
  /-- Also rejected candidates and memo lookups. -/
  | verbose
deriving DecidableEq

structure TraceStyle where
  verbosity : Verbosity := .brief
  palette : Palette := .plain

namespace TraceStyle

/-- A keyword, filled up to six places, before the rest of the line. -/
def lineOf (keyword rest : String) : String :=
  keyword ++ String.ofList (List.replicate (6 - keyword.length) ' ') ++ " " ++ rest

def pathText (path : Array Nat) : String :=
  if path.isEmpty then "/" else String.join (path.toList.map fun i => "/" ++ toString i)

def line? (style : TraceStyle) : Event → Option String
  | .candidate filter type path accepted =>
    let p := style.palette
    let place := p.paint p.dim (pathText path)
    if accepted then
      let capture := match filter.capture with
        | some name => " " ++ p.paint p.green ("@" ++ name)
        | none => ""
      some (lineOf "match" (p.paint p.blue type ++ " " ++ place ++ capture))
    else if style.verbosity = .verbose then
      some (lineOf "reject" (p.paint p.red type ++ " " ++ place))
    else none
  | .lookup query hit =>
    let p := style.palette
    if style.verbosity = .verbose then
      some (lineOf "cache" (p.paint p.dim (if hit then "hit " else "miss") ++ " " ++ query.toText))
    else none
  | .found captures =>
    let p := style.palette
    let shown := captures.map fun c => p.paint p.green c.1 ++ ": " ++ p.paint p.blue c.2
    some (lineOf "result" ("\x7b" ++ ", ".intercalate shown ++ "\x7d"))

def lines (style : TraceStyle) (events : List Event) : List String := events.filterMap style.line?

def render (style : TraceStyle) (events : List Event) : String :=
  "\n".intercalate (style.lines events)

end TraceStyle

end TreeQuery
