import TreeQuery.Number.Binary64

/-! The shortest decimal that reads back as a given binary number, and of those the nearest. -/

namespace TreeQuery

/-- Digits with the point after the first one, times `10 ^ exponent`. -/
structure Decimal where
  digits : List Nat
  exponent : Int

namespace Binary64

/-- The decimals that round to a positive magnitude, in quarters of its unit `2 ^ exponent`. The
interval is narrower below a power of two, and its ends count when the significand is even. -/
structure Interval where
  low : Nat
  high : Nat
  closed : Bool

def interval (x : Binary64) : Interval where
  low := 4 * x.significand -
    if x.significand = Nat.pow 2 52 ∧ x.exponent ≠ -1074 then 1 else 2
  high := 4 * x.significand + 2
  closed := x.significand % 2 == 0

/-- Scales so that `a` quarters of a unit and `b · 10 ^ p` are compared as naturals. -/
def quarters (x : Binary64) (p : Int) (a : Nat) : Nat :=
  a * Nat.pow 2 (x.exponent - 2).toNat * Nat.pow 10 (-p).toNat

def grid (x : Binary64) (p : Int) (b : Nat) : Nat :=
  b * Nat.pow 2 (-(x.exponent - 2)).toNat * Nat.pow 10 p.toNat

/-- Whether `b · 10 ^ p` rounds to the magnitude of `x`. -/
def readsBack (x : Binary64) (p : Int) (b : Nat) : Bool :=
  let low := x.quarters p x.interval.low
  let high := x.quarters p x.interval.high
  let here := x.grid p b
  if x.interval.closed then low ≤ here && here ≤ high else low < here && here < high

/-- The greatest `e` with `10 ^ e ≤ x`, for a positive magnitude. -/
def floorLog10 (x : Binary64) : Int :=
  let (num, den) := x.ratio
  let guess := Int.fdiv (floorLog2 num den * 30103) 100000
  let reached (e : Int) : Bool := den * Nat.pow 10 e.toNat ≤ num * Nat.pow 10 (-e).toNat
  if reached (guess + 1) then guess + 1 else if reached guess then guess else guess - 1

/-- Of the two neighbours of `x` on the grid `10 ^ p`, the nearest that reads back; a tie goes to
the even one. -/
def onGrid? (x : Binary64) (p : Int) : Option Nat :=
  let here := x.quarters p (4 * x.significand)
  let below := here / x.grid p 1
  match x.readsBack p below, x.readsBack p (below + 1) with
  | true, true =>
    match compare (2 * here) (x.grid p (2 * below + 1)) with
    | .lt => some below
    | .gt => some (below + 1)
    | .eq => some (below + below % 2)
  | true, false => some below
  | false, true => some (below + 1)
  | false, false => none

def digitsOf (n : Nat) : List Nat := (Nat.toDigits 10 n).map fun c => c.toNat - '0'.toNat

def dropTrailingZeros (digits : List Nat) : List Nat :=
  (digits.reverse.dropWhile (· == 0)).reverse

/-- Tries one digit, two digits, and so on; seventeen are always enough. -/
def shortest (x : Binary64) : Decimal :=
  if x.isZero then ⟨[0], 0⟩
  else
    let e := x.floorLog10
    let found := (List.range 17).findSome? fun (k : Nat) =>
      (x.onGrid? (e - k)).map fun b => (b, e - (k : Int))
    match found with
    | none => ⟨[0], 0⟩
    | some (b, p) =>
      let digits := digitsOf b
      ⟨dropTrailingZeros digits, p + digits.length - 1⟩

end Binary64

end TreeQuery
