import TreeQuery.Number.Binary64

/-! Decimal numbers read by scaling: the digits become a number first, which is then multiplied or
divided by rounded powers of ten. The last bit can differ from the nearest number. -/

namespace TreeQuery

structure Scaled where
  negative : Bool
  significand : Nat
  exponent : Int

namespace Scaled

def powerOfTen? (k : Nat) : Option Binary64 := Binary64.ofNat? (Nat.pow 10 k)

/-- The largest power of ten that one multiplication or division uses. -/
def maxPower : Nat := 308

def divPower? (x : Binary64) (k : Nat) : Option Binary64 :=
  (powerOfTen? k).bind x.div?

/-- Division by the largest power, over and over; nothing changes a zero. -/
def shrink? : (times : Nat) → Binary64 → Option Binary64
  | 0, x => some x
  | times + 1, x => if x.isZero then some x else (divPower? x maxPower).bind (shrink? times)

def toBinary64? (d : Scaled) : Option Binary64 := do
  let x ← Binary64.ofNat? d.significand
  let scaled ←
    if 0 ≤ d.exponent then
      if d.exponent.toNat ≤ maxPower then (powerOfTen? d.exponent.toNat).bind x.mul?
      else if x.isZero then some x
      else none
    else
      let places := (-d.exponent).toNat
      let times := (places - 1) / maxPower
      (shrink? times x).bind (divPower? · (places - times * maxPower))
  return scaled.withSign d.negative

end Scaled

end TreeQuery
