import Mathlib.Data.Nat.Log
import Formula.Binary32.Arithmetic

/-!
# Formula.Proofs.Exactness

Where single-precision arithmetic is exact, and what it never leaves.

Rounding goes to a nearest magnitude that the format can hold.  So a sum or a product is exact
wherever the format can hold it, as it can the whole numbers up to `2²⁴`; and a product by a number
of at most one does not exceed the other factor, however it is rounded.  Numbers without a sign stay
so, and no NaN comes up among them but from zero and infinity:

* `roundUnits_le` — rounding does not pass a magnitude that the format can hold;
* `finite_add_finite_of_representable`, `finite_mul_finite_of_representable` — exact sums and
  products;
* `exists_mul_eq_finite` — a factor of at most one;
* `Unsigned.add`, `Unsigned.mul_finite` — sums and products of numbers without a sign.
-/

namespace Formula

/-! ## Rounding -/

/-- A quotient that does not exceed a natural number does not when it is rounded. -/
theorem divNearest_le_of_le_mul {num den k : Nat} (hden : 0 < den) (h : num ≤ k * den) :
    divNearest num den ≤ k := by
  rcases Nat.lt_or_eq_of_le h with hlt | rfl
  · have hquotient : num / den < k := (Nat.div_lt_iff_lt_mul hden).2 hlt
    exact (divNearest_le num den).trans hquotient
  · rw [divNearest_of_dvd hden (Nat.dvd_mul_left den k), Nat.mul_div_cancel k hden]

/-- Magnitudes lie further apart as they grow, by powers of two. -/
theorem spacing_dvd_spacing {m n : Nat} (h : m ≤ n) : spacing m ∣ spacing n := by
  have hlog : m.log2 ≤ n.log2 := by
    rw [Nat.log2_eq_log_two, Nat.log2_eq_log_two]
    exact Nat.log_mono_right h
  rw [spacing, spacing, Nat.one_shiftLeft, Nat.one_shiftLeft]
  exact Nat.pow_dvd_pow 2 (Nat.sub_le_sub_right hlog 23)

/-- Rounding does not pass a magnitude that the format can hold. -/
theorem roundUnits_le {num den n : Nat} (hden : 0 < den) (hn : spacing n ∣ n)
    (h : num ≤ n * den) : roundUnits num den ≤ n := by
  have hquotient : num / den ≤ n := Nat.div_le_of_le_mul (Nat.mul_comm n den ▸ h)
  obtain ⟨k, hk⟩ : spacing (num / den) ∣ n := Nat.dvd_trans (spacing_dvd_spacing hquotient) hn
  have hsteps : n * den = k * (den * spacing (num / den)) := by
    rw [Nat.mul_left_comm, Nat.mul_comm k, ← hk, Nat.mul_comm]
  calc roundUnits num den
      ≤ spacing (num / den) * k :=
        Nat.mul_le_mul_left _
          (divNearest_le_of_le_mul (Nat.mul_pos hden (spacing_pos _)) (hsteps ▸ h))
    _ = n := hk.symm

theorem unitsPerOne_pos : 0 < unitsPerOne := by
  rw [unitsPerOne, Nat.one_shiftLeft]
  exact Nat.two_pow_pos _

/-- The format can hold the whole numbers up to `2²⁴`. -/
theorem representable_mul_unitsPerOne {n : Nat} (h : n ≤ 1 <<< 24) :
    Representable (n * unitsPerOne) := by
  constructor
  · have hspacing : spacing (1 <<< 172) = unitsPerOne := by decide +kernel
    rw [Nat.mul_comm, ← hspacing]
    exact spacing_dvd_spacing_mul h
  · exact Nat.mul_lt_mul_of_pos_right (Nat.lt_of_le_of_lt h (by decide)) unitsPerOne_pos

namespace Binary32

/-! ## Exact sums and products -/

section Finite

variable {s t : Bool} {m n k : Nat} {hm : Representable m} {hn : Representable n}

/-- Magnitudes of the same sign add up, with one rounding. -/
theorem finite_add_finite : (finite s m hm + finite s n hn : Binary32) = ofUnits s (m + n) 1 := by
  show Binary32.add _ _ = _
  rw [Binary32.add, if_pos rfl]

/-- Magnitudes are multiplied, with one rounding. -/
theorem finite_mul_finite :
    (finite s m hm * finite t n hn : Binary32) = ofUnits (s ^^ t) (m * n) unitsPerOne := by
  show Binary32.mul _ _ = _
  rw [Binary32.mul]

/-- A sum of numbers with the same sign is exact if the format can hold it. -/
theorem finite_add_finite_of_representable (h : Representable (m + n)) :
    (finite s m hm + finite s n hn : Binary32) = finite s (m + n) h := by
  rw [finite_add_finite, ofUnits_of_representable s h]

/-- A product is exact if the format can hold it. -/
theorem finite_mul_finite_of_representable (h : Representable k) (hk : m * n = k * unitsPerOne) :
    (finite s m hm * finite t n hn : Binary32) = finite (s ^^ t) k h := by
  rw [finite_mul_finite, hk, ofUnits_mul_of_representable _ h unitsPerOne_pos]

/-- Adding zero changes nothing. -/
theorem finite_add_zero {hzero : Representable 0} :
    (finite s n hn + finite s 0 hzero : Binary32) = finite s n hn := by
  rw [finite_add_finite, Nat.add_zero, ofUnits_of_representable s hn]

/-- Zero times a finite number is zero. -/
theorem zero_mul_finite {hzero : Representable 0} :
    (finite s 0 hzero * finite t n hn : Binary32) = finite (s ^^ t) 0 hzero :=
  finite_mul_finite_of_representable hzero (by rw [Nat.zero_mul, Nat.zero_mul])

end Finite

/-- A whole number up to `2²⁴` is that number. -/
theorem ofNat_eq_finite {n : Nat} (h : n ≤ 1 <<< 24) :
    ofNat n = finite false (n * unitsPerOne) (representable_mul_unitsPerOne h) := by
  unfold ofNat ofRatio
  exact ofUnits_of_representable false _

theorem ofNat_add_ofNat {m n : Nat} (h : m + n ≤ 1 <<< 24) :
    (ofNat m + ofNat n : Binary32) = ofNat (m + n) := by
  have hsum : m * unitsPerOne + n * unitsPerOne = (m + n) * unitsPerOne :=
    (Nat.add_mul m n unitsPerOne).symm
  have hexact : Representable (m * unitsPerOne + n * unitsPerOne) := by
    rw [hsum]
    exact representable_mul_unitsPerOne h
  rw [ofNat_eq_finite ((Nat.le_add_right m n).trans h),
    ofNat_eq_finite ((Nat.le_add_left n m).trans h), ofNat_eq_finite h,
    finite_add_finite_of_representable hexact]
  simp only [hsum]

theorem ofNat_mul_ofNat {m n : Nat} (hm : m ≤ 1 <<< 24) (hn : n ≤ 1 <<< 24)
    (h : m * n ≤ 1 <<< 24) : (ofNat m * ofNat n : Binary32) = ofNat (m * n) := by
  have hproduct : m * unitsPerOne * (n * unitsPerOne) = m * n * unitsPerOne * unitsPerOne := by
    rw [Nat.mul_mul_mul_comm, Nat.mul_assoc (m * n)]
  rw [ofNat_eq_finite hm, ofNat_eq_finite hn, ofNat_eq_finite h]
  exact finite_mul_finite_of_representable (representable_mul_unitsPerOne h) hproduct

/-- What does not exceed a finite number is finite when it is rounded, and does not either. -/
theorem exists_ofUnits_eq_finite (s : Bool) {num den n : Nat} (hden : 0 < den)
    (hn : Representable n) (h : num ≤ n * den) :
    ∃ k, ∃ hk : Representable k, k ≤ n ∧ ofUnits s num den = finite s k hk := by
  have hle : roundUnits num den ≤ n := roundUnits_le hden hn.1 h
  have hlt : roundUnits num den < overflowUnits := Nat.lt_of_le_of_lt hle hn.2
  exact ⟨_, ⟨spacing_dvd_roundUnits num den, hlt⟩, hle, dif_pos hlt⟩

/-- A product by a number of at most one does not exceed the other factor. -/
theorem exists_mul_eq_finite {s t : Bool} {m n : Nat} (hm : Representable m)
    (hn : Representable n) (hone : n ≤ unitsPerOne) :
    ∃ k, ∃ hk : Representable k,
      k ≤ m ∧ (finite s m hm * finite t n hn : Binary32) = finite (s ^^ t) k hk := by
  rw [finite_mul_finite]
  exact exists_ofUnits_eq_finite (s ^^ t) unitsPerOne_pos hm (Nat.mul_le_mul_left m hone)

/-! ## Numbers without a sign -/

/-- No NaN, and with a sign that is clear: zero or more, but not negative zero. -/
inductive Unsigned : Binary32 → Prop
  | infinite : Unsigned (.infinite false)
  | finite (n : Nat) (h : Representable n) : Unsigned (.finite false n h)

theorem unsigned_iff {x : Binary32} :
    x.Unsigned ↔ x.isNegative = false ∧ ∀ s, x ≠ nan s := by
  constructor
  · rintro (_ | _) <;> exact ⟨rfl, fun s => by simp⟩
  · rintro ⟨hsign, hnan⟩
    cases x with
    | nan s => exact absurd rfl (hnan s)
    | infinite s =>
        obtain rfl : s = false := hsign
        exact .infinite
    | finite s n h =>
        obtain rfl : s = false := hsign
        exact .finite n h

/-- Rounding yields a number without a sign, infinite if need be. -/
theorem unsigned_ofUnits (num den : Nat) : (ofUnits false num den).Unsigned := by
  unfold ofUnits
  split
  · exact .finite _ _
  · exact .infinite

theorem unsigned_ofNat (n : Nat) : (ofNat n).Unsigned := unsigned_ofUnits _ _

namespace Unsigned

variable {x y : Binary32}

theorem add (hx : x.Unsigned) (hy : y.Unsigned) : (x + y).Unsigned := by
  show (Binary32.add x y).Unsigned
  cases hx with
  | infinite =>
      cases hy with
      | infinite =>
          rw [Binary32.add, if_pos rfl]
          exact .infinite
      | finite n hn =>
          rw [Binary32.add]
          exact .infinite
  | finite m hm =>
      cases hy with
      | infinite =>
          rw [Binary32.add]
          exact .infinite
      | finite n hn =>
          rw [Binary32.add, if_pos rfl]
          exact unsigned_ofUnits _ _

/-- Only an infinity times zero is not a number. -/
theorem mul_finite (hx : x.Unsigned) {n : Nat} {hn : Representable n}
    (h : x = .infinite false → n ≠ 0) : (x * .finite false n hn).Unsigned := by
  cases hx with
  | infinite =>
      show (Binary32.mul _ _).Unsigned
      rw [Binary32.mul, if_neg (h rfl)]
      exact .infinite
  | finite m hm =>
      rw [finite_mul_finite]
      exact unsigned_ofUnits _ _

end Unsigned

end Binary32

end Formula
