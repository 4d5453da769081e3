import Formula.Binary32.Basic

/-!
# Formula.Binary64

Double-precision numbers, held by their bit pattern.  Formulas are never computed in double
precision; these numbers only arrive, as an elapsed time or as the result of an elementary
function, and are rounded to single precision.
-/

namespace Formula

/-- A double-precision number by its interchange pattern: a sign bit, eleven bits of exponent and
52 of fraction. -/
structure Binary64 where
  bits : UInt64
deriving DecidableEq, Repr

namespace Binary64

/-- The single-precision number nearest to a double-precision one.

With an exponent field `k > 0` and a significand `m` the value is `m * 2^(k - 1075)`, hence
`m * 2^k / 2^926` of the single-precision units.  A field of zero stands for the exponent of the
field one, without the leading bit of the significand. -/
def toBinary32 (x : Binary64) : Binary32 :=
  let negative := x.bits >>> 63 == 1
  let exponent := (x.bits >>> 52 &&& 0x7ff).toNat
  let fraction := (x.bits &&& 0xfffffffffffff).toNat
  if exponent = 0x7ff then
    if fraction = 0 then .infinite negative else .nan negative
  else if exponent = 0 then
    .ofUnits negative fraction (1 <<< 925)
  else if exponent ≤ 926 then
    .ofUnits negative (1 <<< 52 + fraction) (1 <<< (926 - exponent))
  else
    .ofUnits negative ((1 <<< 52 + fraction) <<< (exponent - 926)) 1

end Binary64

end Formula
