import Formula.Proofs.Exactness
import Formula.Proofs.Numerals

/-!
# Formula.Proofs.LiteralValues

What literals are read as, digit by digit and with one rounding per operation.

In front of the dot a value is multiplied by ten and a digit is added, which is exact as long as the
result does not exceed `2²⁴`.  Beyond that it may round, up to infinity.  Behind the dot the weight
of a place never exceeds that of the place before it, and may round down to zero.  So a digit there
is never multiplied by infinity, however many there are; and zeros add nothing:

* `wholeValue_eq_ofNat` — whole numbers up to `2²⁴` are read exactly;
* `Cut.IsWeighed.appendPlace` — the weight of a place stays finite, and at most one;
* `unsigned_of_read_eq_ok` — no literal is read as a NaN or with a sign;
* `toPostfix_evaluate_of_writesWhole`, `step_literal_unsigned` — what that means for whole texts, and
  for the numbers that are read.
-/

namespace Formula

open Binary32 Infix

namespace Literal

/-! ## Digits in front of the dot -/

/-- Whatever the character, its distance from zero is small enough to be exact. -/
theorem digit_le (c : Char) : c.toNat - '0'.toNat ≤ 1 <<< 24 := by
  have hvalid : c.toNat < 0x110000 := by
    have := c.valid
    rcases this with h | h
    · exact Nat.lt_trans h (by decide)
    · exact h.2
  have hbound : 0x110000 ≤ 1 <<< 24 := by decide
  omega

theorem wholeValue_append_singleton (digits : List Char) (c : Char) :
    wholeValue (digits ++ [c]) = appendDigit (wholeValue digits) c :=
  List.foldl_append

/-- One more digit is exact as long as the number does not exceed `2²⁴`. -/
theorem appendDigit_ofNat {n : Nat} {c : Char} (h : n * 10 + (c.toNat - '0'.toNat) ≤ 1 <<< 24) :
    appendDigit (ofNat n) c = ofNat (n * 10 + (c.toNat - '0'.toNat)) := by
  have hten : 10 ≤ 1 <<< 24 := by decide
  have hproduct : n * 10 ≤ 1 <<< 24 := (Nat.le_add_right _ _).trans h
  have hvalue : n ≤ 1 <<< 24 := (Nat.le_mul_of_pos_right n (by decide)).trans hproduct
  show ofNat n * ofNat 10 + ofNat (c.toNat - '0'.toNat) = _
  rw [ofNat_mul_ofNat hvalue hten hproduct, ofNat_add_ofNat h]

/-- Whole numbers up to `2²⁴` are read exactly, with any number of zeros in front. -/
theorem wholeValue_eq_ofNat {digits : List Char}
    (h : Nat.ofDigitChars 10 digits 0 ≤ 1 <<< 24) :
    wholeValue digits = ofNat (Nat.ofDigitChars 10 digits 0) := by
  induction digits using List.reverseRecOn with
  | nil => rfl
  | append_singleton digits c ih =>
      have hnumber : Nat.ofDigitChars 10 (digits ++ [c]) 0 =
          Nat.ofDigitChars 10 digits 0 * 10 + (c.toNat - '0'.toNat) := by
        rw [Nat.ofDigitChars, List.foldl_append, Nat.mul_comm]
        rfl
      rw [hnumber] at h ⊢
      rw [wholeValue_append_singleton, ih (by omega), appendDigit_ofNat h]

/-- A digit in front of the dot leaves a value without a sign. -/
theorem unsigned_appendDigit {x : Binary32} (h : x.Unsigned) (c : Char) :
    (appendDigit x c).Unsigned := by
  have hten : (10 : Binary32) = .finite false (10 * unitsPerOne) _ := ofNat_eq_finite (by decide)
  have hproduct : (x * 10).Unsigned := by
    rw [hten]
    exact h.mul_finite fun _ => Nat.mul_ne_zero (by decide) unitsPerOne_pos.ne'
  exact hproduct.add (unsigned_ofNat _)

theorem unsigned_wholeValue (digits : List Char) : (wholeValue digits).Unsigned := by
  induction digits using List.reverseRecOn with
  | nil => exact unsigned_ofNat 0
  | append_singleton digits c ih =>
      rw [wholeValue_append_singleton]
      exact unsigned_appendDigit ih c

/-! ## Digits behind the dot -/

namespace Cut

/-- The weight of the last place is finite and at most one. -/
def IsWeighed (p : Cut) : Prop :=
  ∃ n, ∃ h : Representable n, n ≤ unitsPerOne ∧ p.weight = .finite false n h

theorem isWeighed_one (x : Binary32) : IsWeighed ⟨x, 1⟩ := by
  have hone : 1 ≤ 1 <<< 24 := by decide
  exact ⟨1 * unitsPerOne, _, Nat.le_of_eq (Nat.one_mul _), ofNat_eq_finite hone⟩

/-- A tenth is finite and at most one. -/
theorem exists_tenth_eq_finite :
    ∃ n, ∃ h : Representable n, n ≤ unitsPerOne ∧ tenth = .finite false n h := by
  have hone : Representable (1 * unitsPerOne) := representable_mul_unitsPerOne (by decide)
  obtain ⟨n, h, hle, htenth⟩ := exists_ofUnits_eq_finite false (show 0 < 10 by decide) hone
    (Nat.le_mul_of_pos_right _ (by decide))
  exact ⟨n, h, hle.trans (Nat.le_of_eq (Nat.one_mul _)), htenth⟩

variable {p : Cut}

/-- One more place weighs at most as much as the one before it. -/
theorem IsWeighed.appendPlace (hp : p.IsWeighed) (c : Char) : (p.appendPlace c).IsWeighed := by
  obtain ⟨m, hm, hone, hweight⟩ := hp
  obtain ⟨n, hn, htenth, heq⟩ := exists_tenth_eq_finite
  obtain ⟨k, hk, hle, hproduct⟩ := exists_mul_eq_finite (s := false) (t := false) hm hn htenth
  refine ⟨k, hk, hle.trans hone, ?_⟩
  rw [Cut.appendPlace, hweight, heq]
  exact hproduct

/-- A digit behind the dot leaves a value without a sign. -/
theorem unsigned_appendPlace (hp : p.IsWeighed) (hvalue : p.value.Unsigned) (c : Char) :
    (p.appendPlace c).value.Unsigned := by
  obtain ⟨n, hn, -, hweight⟩ := hp.appendPlace c
  have hdigit : digitValue c = .finite false _ _ := ofNat_eq_finite (digit_le c)
  show (p.value + digitValue c * (p.appendPlace c).weight).Unsigned
  rw [hweight, hdigit]
  exact hvalue.add (Unsigned.mul_finite (.finite _ _) (by simp))

/-- A zero behind the dot adds nothing. -/
theorem value_appendPlace_zero (hp : p.IsWeighed) {n : Nat} {h : Representable n}
    (hvalue : p.value = .finite false n h) : (p.appendPlace '0').value = .finite false n h := by
  obtain ⟨k, hk, -, hweight⟩ := hp.appendPlace '0'
  have hdigit : digitValue '0' = .finite false 0 (by decide) := by decide +kernel
  show p.value + digitValue '0' * (p.appendPlace '0').weight = _
  rw [hweight, hdigit, hvalue, zero_mul_finite]
  exact finite_add_zero

theorem unsigned_foldl_appendPlace (hp : p.IsWeighed) (hvalue : p.value.Unsigned)
    (places : List Char) : (places.foldl Cut.appendPlace p).value.Unsigned := by
  induction places generalizing p with
  | nil => exact hvalue
  | cons c places ih => exact ih (hp.appendPlace c) (unsigned_appendPlace hp hvalue c)

theorem value_foldl_appendPlace_zeros (hp : p.IsWeighed) {n : Nat} {h : Representable n}
    (hvalue : p.value = .finite false n h) (k : Nat) :
    ((List.replicate k '0').foldl Cut.appendPlace p).value = .finite false n h := by
  induction k generalizing p with
  | zero => exact hvalue
  | succ k ih => exact ih (hp.appendPlace '0') (value_appendPlace_zero hp hvalue)

end Cut

/-! ## Literals -/

theorem unsigned_value (whole fraction : List Char) : (value whole fraction).Unsigned :=
  Cut.unsigned_foldl_appendPlace (Cut.isWeighed_one _) (unsigned_wholeValue whole) fraction

/-- No literal is read as a NaN or with a sign. -/
theorem unsigned_of_read_eq_ok {run : List Char} {v : Binary32} (h : read run = .ok v) :
    v.Unsigned := by
  unfold read at h
  split at h
  · exact Except.ok.inj h ▸ unsigned_wholeValue _
  · dsimp only at h
    split at h
    · cases h
    split at h
    · cases h
    · exact Except.ok.inj h ▸ unsigned_value _ _

/-- Digits of the decimal value `n`, with zeros in front or not, and perhaps a dot and zeros. -/
def WritesWhole (text : List Char) (n : Nat) : Prop :=
  ∃ digits, digits ≠ [] ∧ (∀ c ∈ digits, c.isDigit) ∧ Nat.ofDigitChars 10 digits 0 = n ∧
    (text = digits ∨ ∃ k, text = digits ++ '.' :: List.replicate (k + 1) '0')

/-- A whole number up to `2²⁴` is denoted exactly. -/
theorem WritesWhole.denotes {text : List Char} {n : Nat} (h : WritesWhole text n)
    (hn : n ≤ 1 <<< 24) :
    Denotes text (.finite false (n * unitsPerOne) (representable_mul_unitsPerOne hn)) := by
  obtain ⟨digits, hne, hdigits, rfl, htext⟩ := h
  have hwhole := (wholeValue_eq_ofNat hn).trans (ofNat_eq_finite hn)
  rcases htext with rfl | ⟨k, rfl⟩
  · exact hwhole ▸ .whole hne hdigits
  · have hvalue : value digits (List.replicate (k + 1) '0') = .finite false _ _ :=
      Cut.value_foldl_appendPlace_zeros (Cut.isWeighed_one _) hwhole (k + 1)
    have hzeros : ∀ c ∈ List.replicate (k + 1) '0', c.isDigit := by
      intro c hc
      rw [List.eq_of_mem_replicate hc]
      decide
    exact hvalue ▸ .decimal hne hdigits (by simp) hzeros

end Literal

/-- Digits of a whole number up to `2²⁴`, with any zeros in front and any zeros behind a dot, are
converted to that number alone, and have exactly that value. -/
theorem toPostfix_evaluate_of_writesWhole {w : String} {n : Nat}
    (h : Literal.WritesWhole w.toList n) (hn : n ≤ 1 <<< 24) (m : Bindings) :
    let v := Binary32.finite false (n * unitsPerOne) (representable_mul_unitsPerOne hn)
    toPostfix w m = .ok ⟨[.number v]⟩ ∧ evaluate w m = .ok v :=
  ⟨(h.denotes hn).toPostfix_eq, (h.denotes hn).evaluate_eq⟩

/-- The last whole number behind which one is missing, with zeros at both ends. -/
theorem toPostfix_evaluate_of_writesWhole_last :
    let m : Bindings := {}
    Literal.WritesWhole "00016777216.00".toList 16777216 ∧ 16777216 ≤ 1 <<< 24 ∧
      ∃ h, toPostfix "00016777216.00" m =
          .ok ⟨[.number (.finite false (16777216 * unitsPerOne) h)]⟩ ∧
        evaluate "00016777216.00" m = .ok (.finite false (16777216 * unitsPerOne) h) := by
  intro m
  have hdigits : "00016777216".toList.all Char.isDigit := by decide
  have hwrites : Literal.WritesWhole "00016777216.00".toList 16777216 :=
    ⟨"00016777216".toList, by decide, List.all_eq_true.1 hdigits, by decide, .inr ⟨1, by decide⟩⟩
  have hlast : 16777216 ≤ 1 <<< 24 := by decide
  exact ⟨hwrites, hlast, representable_mul_unitsPerOne hlast,
    toPostfix_evaluate_of_writesWhole hwrites hlast m⟩

/-- Whatever literal is read, the number that is added is no NaN, and its sign is clear. -/
theorem step_literal_unsigned {m : Bindings} {p q : Progress} {offset : Nat} {run : List Char}
    (h : step m p ⟨offset, .literal run⟩ = .ok q) :
    ∃ v, q = p.number v ∧ v.isNegative = false ∧ ∀ s, v ≠ .nan s := by
  cases hcomplete : p.complete with
  | true => simp [step, hcomplete] at h
  | false =>
      cases hread : Literal.read run with
      | error found => simp [step, hcomplete, hread] at h
      | ok v =>
          obtain rfl : p.number v = q := by simpa [step, hcomplete, hread] using h
          exact ⟨v, rfl, unsigned_iff.1 (Literal.unsigned_of_read_eq_ok hread)⟩

/-- Digits in front of the dot that add up to infinity, and so many behind it that the weight of the
last ones is zero. -/
theorem step_literal_unsigned_infinite :
    let m : Bindings := {}
    let run := '1' :: List.replicate 39 '0' ++ '.' :: (List.replicate 46 '0' ++ ['5'])
    let q := ({} : Progress).number (.infinite false)
    step m {} ⟨0, .literal run⟩ = .ok q ∧
      ∃ v, q = ({} : Progress).number v ∧ v.isNegative = false ∧ ∀ s, v ≠ .nan s := by
  intro m run q
  have h : step m {} ⟨0, .literal run⟩ = .ok q := by decide +kernel
  exact ⟨h, step_literal_unsigned h⟩

end Formula
