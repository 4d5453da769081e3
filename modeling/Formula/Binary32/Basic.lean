/-!
# Formula.Binary32.Basic

Single-precision numbers: a sign, and a magnitude counted in units of `2⁻¹⁴⁹`, the least positive
number of the format.  Counted so, every finite number is a natural number, and arithmetic on
finite numbers is arithmetic on naturals followed by one rounding.

A natural number of units is *representable* when it has at most 24 significant bits and lies
below `2¹²⁸`; the type of numbers carries that as a proof.

* `spacing_dvd_roundUnits` — what rounding returns has at most 24 significant bits, so that
  `ofUnits` may build a number from it;
* `roundUnits_mul_of_spacing_dvd` — rounding leaves such a magnitude alone.
-/

namespace Formula

/-! ## The grid of magnitudes -/

/-- Units in the number one. -/
def unitsPerOne : Nat := 1 <<< 149

/-- The first magnitude beyond the finite range, `2¹²⁸` in units. -/
def overflowUnits : Nat := 1 <<< 128 * unitsPerOne

/-- Distance between neighbouring 24-bit magnitudes around `n`: the value of the last of the 24
bits, or a single unit where the format has no finer step. -/
def spacing (n : Nat) : Nat := 1 <<< (n.log2 - 23)

theorem spacing_pos (n : Nat) : 0 < spacing n := by
  rw [spacing, Nat.one_shiftLeft]
  exact Nat.two_pow_pos _

/-- A magnitude that the format can hold. -/
def Representable (n : Nat) : Prop := spacing n ∣ n ∧ n < overflowUnits

instance (n : Nat) : Decidable (Representable n) :=
  inferInstanceAs (Decidable (spacing n ∣ n ∧ n < overflowUnits))

/-! ## Rounding to nearest, ties to even -/

/-- The quotient `num / den` rounded to the nearest natural number, a half to the even one. -/
def divNearest (num den : Nat) : Nat :=
  let q := num / den
  match compare (2 * (num % den)) den with
  | .lt => q
  | .gt => q + 1
  | .eq => if q % 2 = 0 then q else q + 1

theorem divNearest_le (num den : Nat) : divNearest num den ≤ num / den + 1 := by
  simp only [divNearest]
  repeat' split
  all_goals omega

theorem divNearest_of_dvd {num den : Nat} (hpos : 0 < den) (h : den ∣ num) :
    divNearest num den = num / den := by
  have hz : num % den = 0 := Nat.mod_eq_zero_of_dvd h
  have hc : compare (2 * (num % den)) den = .lt := by
    rw [hz, Nat.compare_eq_lt]; omega
  simp only [divNearest, hc]

/-- The magnitude of at most 24 significant bits that is nearest to `num / den` units. -/
def roundUnits (num den : Nat) : Nat :=
  spacing (num / den) * divNearest num (den * spacing (num / den))

/-- At most `2²⁴` steps of a grid make a magnitude of at most 24 significant bits. -/
theorem spacing_dvd_spacing_mul {m k : Nat} (hk : k ≤ 1 <<< 24) :
    spacing (spacing m * k) ∣ spacing m * k := by
  simp only [spacing, Nat.one_shiftLeft] at hk ⊢
  generalize m.log2 - 23 = e
  rcases Nat.lt_or_eq_of_le hk with hlt | rfl
  · refine Nat.dvd_trans ?_ (Nat.dvd_mul_right _ _)
    refine Nat.pow_dvd_pow 2 ?_
    by_cases hz : 2 ^ e * k = 0
    · rw [hz]; simp
    · have hb : 2 ^ e * k < 2 ^ (e + 24) := by
        rw [Nat.pow_add]; exact Nat.mul_lt_mul_of_pos_left hlt (Nat.two_pow_pos e)
      have := (Nat.log2_lt hz).2 hb
      omega
  · rw [← Nat.pow_add, Nat.log2_two_pow]
    exact Nat.pow_dvd_pow 2 (by omega)

theorem spacing_dvd_roundUnits (num den : Nat) :
    spacing (roundUnits num den) ∣ roundUnits num den := by
  refine spacing_dvd_spacing_mul (Nat.le_trans (divNearest_le _ _) ?_)
  -- the quotient over a full grid step has at most 24 bits
  rw [← Nat.div_div_eq_div_mul]
  refine Nat.succ_le_of_lt ((Nat.div_lt_iff_lt_mul (spacing_pos _)).2 ?_)
  refine Nat.lt_of_lt_of_le Nat.lt_log2_self ?_
  rw [spacing, Nat.one_shiftLeft, Nat.one_shiftLeft, ← Nat.pow_add]
  exact Nat.pow_le_pow_right (by decide) (by omega)

/-- Rounding leaves a magnitude of at most 24 significant bits alone, also where it is given as a
quotient. -/
theorem roundUnits_mul_of_spacing_dvd {n den : Nat} (hden : 0 < den) (h : spacing n ∣ n) :
    roundUnits (n * den) den = n := by
  have hdvd : den * spacing n ∣ n * den := Nat.mul_comm n den ▸ Nat.mul_dvd_mul_left den h
  rw [roundUnits, Nat.mul_div_cancel n hden,
    divNearest_of_dvd (Nat.mul_pos hden (spacing_pos n)) hdvd, Nat.mul_comm n den,
    Nat.mul_div_mul_left n _ hden]
  exact Nat.mul_div_cancel' h

/-! ## Numbers -/

/-- A single-precision number.  A NaN keeps its sign and nothing else. -/
inductive Binary32 where
  | nan (negative : Bool)
  | infinite (negative : Bool)
  /-- The magnitude is `units * 2⁻¹⁴⁹`; zero has both signs. -/
  | finite (negative : Bool) (units : Nat) (representable : Representable units)
deriving DecidableEq, Repr

namespace Binary32

/-- The number nearest to `num / den` units with the given sign, infinite beyond the finite
range. -/
def ofUnits (negative : Bool) (num den : Nat) : Binary32 :=
  if h : roundUnits num den < overflowUnits then
    .finite negative (roundUnits num den) ⟨spacing_dvd_roundUnits num den, h⟩
  else
    .infinite negative

theorem ofUnits_mul_of_representable (negative : Bool) {n den : Nat} (h : Representable n)
    (hden : 0 < den) : ofUnits negative (n * den) den = .finite negative n h := by
  simp [ofUnits, roundUnits_mul_of_spacing_dvd hden h.1, h.2]

theorem ofUnits_of_representable (negative : Bool) {n : Nat} (h : Representable n) :
    ofUnits negative n 1 = .finite negative n h := by
  simpa using ofUnits_mul_of_representable negative h Nat.one_pos

/-- The number nearest to the quotient `num / den`. -/
def ofRatio (num den : Nat) : Binary32 := ofUnits false (num * unitsPerOne) den

/-- The number nearest to the natural number `n`. -/
def ofNat (n : Nat) : Binary32 := ofRatio n 1

instance (n : Nat) : OfNat Binary32 n := ⟨ofNat n⟩

instance : Inhabited Binary32 := ⟨0⟩

/-- The sign of a number, also of a zero and of a NaN. -/
def isNegative : Binary32 → Bool
  | .nan s | .infinite s | .finite s _ _ => s

/-- Numeric equality: a NaN differs from everything, the two zeros are equal. -/
def equal : Binary32 → Binary32 → Bool
  | .nan _, _ | _, .nan _ => false
  | .infinite s, .infinite t => s == t
  | .finite s m _, .finite t n _ => m == n && (s == t || m == 0)
  | _, _ => false

/-! ## Bit patterns -/

/-- The number with the interchange pattern `bits`: a sign bit, eight bits of exponent and 23 of
fraction.  The payload of a NaN is dropped. -/
def ofBits (bits : UInt32) : Binary32 :=
  let negative := bits >>> 31 == 1
  let exponent := (bits >>> 23 &&& 0xff).toNat
  let fraction := (bits &&& 0x7fffff).toNat
  if exponent = 0xff then
    if fraction = 0 then .infinite negative else .nan negative
  else if exponent = 0 then
    ofUnits negative fraction 1
  else
    ofUnits negative ((1 <<< 23 + fraction) <<< (exponent - 1)) 1

/-- Interchange pattern; a NaN is written as the quiet one without payload.  The leading one of a
24-bit significand carries into the exponent field, which is why the field holds the exponent of
the spacing and not that plus one. -/
def toBits (x : Binary32) : UInt32 :=
  let pattern : Nat := match x with
    | .nan _ => 0x7fc00000
    | .infinite _ => 0x7f800000
    | .finite _ n _ => (n.log2 - 23) <<< 23 + n / spacing n
  UInt32.ofNat ((if x.isNegative then 0x80000000 else 0) + pattern)

end Binary32

end Formula
