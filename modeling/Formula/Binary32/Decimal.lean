import Formula.Binary32.Basic

/-!
# Formula.Binary32.Decimal

The text of a single-precision number: the fewest decimal digits that read back as the same
number, and of those the nearest to it.

Reading rounds to nearest, so a decimal reads back as a number when it lies in the interval that
reaches half way to either neighbour.  The text is therefore found by trying ever finer decimal
grids until a point of one falls into the interval; only the two grid points around the number
need to be tried.  No finite number needs a grid finer than 45 places, which is just finer than a
unit, and all lengths here are natural numbers of `10⁻⁴⁵` units.

The layout is positional throughout: zeros fill up to the point, an exponent is never written,
and a whole number has neither point nor fraction.
-/

namespace Formula.Binary32

/-! ## Decimal grids -/

/-- Decimal places of the finest grid. -/
def finestPlaces : Nat := 45

/-- The length of `n` units in `10⁻⁴⁵` units. -/
def fineLength (n : Nat) : Nat := n * Nat.pow 10 finestPlaces

/-- One step of the grid `j`, which is `10 ^ (j - 45)`, in `10⁻⁴⁵` units. -/
def gridStep (j : Nat) : Nat := Nat.pow 10 j * unitsPerOne

/-- A grid at least as coarse as the one with the shortest decimal of `n` units.  A decimal digit
is more than three binary ones, so the step of any coarser grid is over twice the number and its
only point below that is zero. -/
def firstGrid (n : Nat) : Nat := (fineLength n / unitsPerOne).log2 / 3 + 1

/-! ## The interval of decimals that read back -/

/-- Distance to the neighbour below.  A power of two has its lower neighbour on the denser of the
two sides, unless it is so small that both sides are equally dense. -/
def spacingBelow (n : Nat) : Nat :=
  if n = 1 <<< n.log2 ∧ 1 <<< 24 ≤ n then spacing n / 2 else spacing n

/-- Whether the point `c` of the grid `j` reads back as `n` units.  Half way to a neighbour the
even significand wins, so the ends of the interval belong to it when that of `n` is even. -/
def readsBack (n c j : Nat) : Bool :=
  let point := 2 * (c * gridStep j)
  let low := 2 * fineLength n - fineLength (spacingBelow n)
  let high := 2 * fineLength n + fineLength (spacing n)
  if n / spacing n % 2 = 0 then
    low ≤ point && point ≤ high
  else
    low < point && point < high

/-! ## The shortest decimal -/

/-- The point of the grid `j` nearest to `n` units among those that read back; half way between
two of them the upper one. -/
def onGrid (n j : Nat) : Option Nat :=
  let below := fineLength n / gridStep j
  match readsBack n below j, readsBack n (below + 1) j with
  | false, false => none
  | true, false => some below
  | false, true => some (below + 1)
  | true, true =>
    some (if 2 * (fineLength n % gridStep j) < gridStep j then below else below + 1)

/-- The coarsest of the grids `j, …, 0` with a point that reads back as `n` units, and that
point. -/
def coarsestPoint (n : Nat) : (j : Nat) → Nat × Nat
  | 0 => ((onGrid n 0).getD (fineLength n / gridStep 0), 0)
  | j + 1 => match onGrid n (j + 1) with
    | some c => (c, j + 1)
    | none => coarsestPoint n j

/-! ## Layout -/

/-- The point `c` of the grid `j` in positional notation. -/
def gridText (c j : Nat) : List Char :=
  if finestPlaces ≤ j then
    Nat.toDigits 10 c ++ List.replicate (j - finestPlaces) '0'
  else
    let places := finestPlaces - j
    let digits := (Nat.toDigits 10 c).leftpad (places + 1) '0'
    digits.take (digits.length - places) ++ '.' :: digits.drop (digits.length - places)

/-- Text of a magnitude of `n` units. -/
def magnitudeText (n : Nat) : List Char :=
  if n = 0 then
    ['0']
  else
    let (c, j) := coarsestPoint n (firstGrid n)
    gridText c j

/-- Text of a number; a NaN is written without its sign. -/
def text : Binary32 → String
  | .nan _ => "NaN"
  | .infinite false => "inf"
  | .infinite true => "-inf"
  | .finite false n _ => String.ofList (magnitudeText n)
  | .finite true n _ => String.ofList ('-' :: magnitudeText n)

instance : ToString Binary32 := ⟨text⟩

end Formula.Binary32
