import Formula.Binary32.Basic

/-!
# Formula.Binary32.Arithmetic

The operations on single-precision numbers whose result is the exact one rounded once: sum,
difference, product, quotient, truncated remainder, square root, absolute value, and the two
roundings to a whole number.

Magnitudes are naturals, so each operation computes the exact result, or its quotient by a
natural, and hands it to `ofUnits`.  Signs, infinities and NaNs follow the usual rules:

1. a NaN operand gives a NaN, and so do `∞ - ∞`, `0 * ∞`, `0 / 0`, `∞ / ∞`, a remainder of an
   infinity or by zero, and the root of a negative number;
2. a nonzero number divided by zero is an infinity;
3. an exact zero difference of unequal signs is positive, and a zero remainder has the sign of
   the dividend.
-/

namespace Formula

namespace Binary32

/-! ## Signs -/

/-- The number with its sign turned, a NaN's and a zero's too. -/
protected def neg : Binary32 → Binary32
  | .nan s => .nan !s
  | .infinite s => .infinite !s
  | .finite s m h => .finite (!s) m h

instance : Neg Binary32 := ⟨Binary32.neg⟩

/-- The number without its sign, a NaN's too. -/
def abs : Binary32 → Binary32
  | .nan _ => .nan false
  | .infinite _ => .infinite false
  | .finite _ m h => .finite false m h

/-- Minus one below zero and one above it; a zero and a NaN count by their sign. -/
def sign (x : Binary32) : Binary32 := if x.isNegative then -1 else 1

/-! ## Sum and difference -/

/-- The sum.  Magnitudes of one sign add up, those of opposite signs cancel. -/
protected def add : Binary32 → Binary32 → Binary32
  | .nan s, _ => .nan s
  | _, .nan t => .nan t
  | .infinite s, .infinite t => if s = t then .infinite s else .nan false
  | .infinite s, .finite .. => .infinite s
  | .finite .., .infinite t => .infinite t
  | .finite s m _, .finite t n _ =>
    if s = t then ofUnits s (m + n) 1
    else if m < n then ofUnits t (n - m) 1
    else if n < m then ofUnits s (m - n) 1
    else 0

instance : Add Binary32 := ⟨Binary32.add⟩

/-- A difference is a sum with the second operand's sign turned. -/
instance : Sub Binary32 := ⟨fun x y => x + -y⟩

/-! ## Product, quotient and remainder -/

/-- The product; its sign is negative when the signs differ. -/
protected def mul : Binary32 → Binary32 → Binary32
  | .nan s, _ => .nan s
  | _, .nan t => .nan t
  | .infinite s, .infinite t => .infinite (s ^^ t)
  | .infinite s, .finite t n _ | .finite t n _, .infinite s =>
    if n = 0 then .nan false else .infinite (s ^^ t)
  | .finite s m _, .finite t n _ => ofUnits (s ^^ t) (m * n) unitsPerOne

instance : Mul Binary32 := ⟨Binary32.mul⟩

/-- The quotient; its sign is negative when the signs differ. -/
protected def div : Binary32 → Binary32 → Binary32
  | .nan s, _ => .nan s
  | _, .nan t => .nan t
  | .infinite _, .infinite _ => .nan false
  | .infinite s, .finite t _ _ => .infinite (s ^^ t)
  | .finite s _ _, .infinite t => ofUnits (s ^^ t) 0 1
  | .finite s m _, .finite t n _ =>
    if n = 0 then
      if m = 0 then .nan false else .infinite (s ^^ t)
    else
      ofUnits (s ^^ t) (m * unitsPerOne) n

instance : Div Binary32 := ⟨Binary32.div⟩

/-- The remainder of the division truncated toward zero; it is exact and has the sign of the
dividend. -/
protected def mod : Binary32 → Binary32 → Binary32
  | .nan s, _ => .nan s
  | _, .nan t => .nan t
  | .infinite _, _ => .nan false
  | .finite s m h, .infinite _ => .finite s m h
  | .finite s m _, .finite _ n _ => if n = 0 then .nan false else ofUnits s (m % n) 1

instance : Mod Binary32 := ⟨Binary32.mod⟩

/-! ## Roundings to a whole number -/

/-- The whole number that is nearest in one direction: up in magnitude for the sign `outward`,
down in magnitude for the other. -/
private def toWhole (outward : Bool) : Binary32 → Binary32
  | .finite s m _ =>
    let whole := if s = outward then (m + unitsPerOne - 1) / unitsPerOne else m / unitsPerOne
    ofUnits s (whole * unitsPerOne) 1
  | x => x

/-- The greatest whole number that is not above `x`. -/
def floor (x : Binary32) : Binary32 := toWhole true x

/-- The least whole number that is not below `x`; of numbers in `(-1, 0)` it is negative zero. -/
def ceil (x : Binary32) : Binary32 := toWhole false x

/-! ## Square root -/

/-- The correctly rounded square root.  Half a unit stands for whatever part of the root is not
whole: the root of the least positive number already has 75 binary digits, so the midpoints
between neighbouring results are whole numbers of units and any such part rounds alike. -/
def sqrt : Binary32 → Binary32
  | .nan s => .nan s
  | .infinite false => .infinite false
  | .infinite true => .nan false
  | .finite s m h =>
    if m = 0 then .finite s m h
    else if s then .nan false
    else
      let r := Nat.sqrt (m * unitsPerOne)
      ofUnits false (2 * r + if r * r = m * unitsPerOne then 0 else 1) 2

end Binary32

end Formula
