import TreeQuery.Number.Shortest

/-! How numbers are written: integers in plain digits, others with the shortest digits, in
positional notation while the decimal exponent is small. -/

namespace TreeQuery

def digitChars (digits : List Nat) : List Char := digits.map Nat.digitChar

def intChars (i : Int) : List Char :=
  if i < 0 then '-' :: Nat.toDigits 10 i.natAbs else Nat.toDigits 10 i.natAbs

namespace Decimal

/-- Plain digits with a point, and at least one digit on either side of it. -/
def positional (d : Decimal) : List Char :=
  if d.exponent < 0 then
    '0' :: '.' :: (List.replicate (-d.exponent - 1).toNat '0' ++ digitChars d.digits)
  else
    let whole := d.exponent.toNat + 1
    let fraction := d.digits.drop whole
    digitChars (d.digits.take whole) ++ List.replicate (whole - d.digits.length) '0' ++
      '.' :: (if fraction.isEmpty then ['0'] else digitChars fraction)

/-- One digit, a point and the other digits if there are any, and a signed exponent. -/
def scientific (d : Decimal) : List Char :=
  let mark := if d.exponent < 0 then '-' else '+'
  let fraction := d.digits.drop 1
  digitChars (d.digits.take 1) ++
    (if fraction.isEmpty then [] else '.' :: digitChars fraction) ++
    'e' :: mark :: Nat.toDigits 10 d.exponent.natAbs

end Decimal

/-- Positional from `10 ^ (-5)` to below `10 ^ 16`, scientific outside. -/
def Binary64.chars (x : Binary64) : List Char :=
  let d := x.shortest
  let magnitude := if -5 ≤ d.exponent ∧ d.exponent ≤ 15 then d.positional else d.scientific
  if x.negative then '-' :: magnitude else magnitude

end TreeQuery
