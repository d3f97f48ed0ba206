/-! The colours of a trace: codes that are written before a text, and one that ends them. Types are
blue, capture names green, the types of rejected candidates red; paths and memo lookups are dim. -/

namespace TreeQuery

structure Palette where
  blue : String := ""
  green : String := ""
  red : String := ""
  dim : String := ""
  reset : String := ""
deriving DecidableEq

namespace Palette

def plain : Palette := {}

instance : Inhabited Palette := ⟨plain⟩

def ansi : Palette where
  blue := "\x1b[34m"
  green := "\x1b[32m"
  red := "\x1b[31m"
  dim := "\x1b[2m"
  reset := "\x1b[0m"

def ofEnabled (enabled : Bool) : Palette := if enabled then ansi else plain

def isEnabled (p : Palette) : Bool := p.reset ≠ ""

def paint (p : Palette) (code text : String) : String := code ++ text ++ p.reset

end Palette

end TreeQuery
