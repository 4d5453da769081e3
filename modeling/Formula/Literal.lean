import Formula.Binary32.Arithmetic
import Formula.Fault

/-!
# Formula.Literal

Number literals: digits, and optionally a dot and more digits.

A literal is read digit by digit in single precision, one rounding per operation: a digit before
the dot is added to ten times what stands before it, a digit behind the dot is weighed by a
factor that shrinks by a tenth from place to place.  The value is therefore not always the number
nearest to the decimal that is written.

* `read_eq_whole` — a run of digits alone is its whole part.
-/

namespace Formula.Literal

/-! ## Values of digits -/

/-- The value of a single digit. -/
def digitValue (c : Char) : Binary32 := .ofNat (c.toNat - '0'.toNat)

/-- A value with one more digit written behind it. -/
def appendDigit (value : Binary32) (c : Char) : Binary32 := value * 10 + digitValue c

/-- The value of the digits in front of the dot. -/
def wholeValue (digits : List Char) : Binary32 := digits.foldl appendDigit 0

/-- What one decimal place scales its digit by, relative to the place before. -/
def tenth : Binary32 := .ofRatio 1 10

/-- The value of a literal cut off behind one of its decimal places, and the weight of that
place. -/
structure Cut where
  value : Binary32
  weight : Binary32
deriving DecidableEq, Repr

/-- One decimal place more. -/
def Cut.appendPlace (p : Cut) (c : Char) : Cut :=
  let weight := p.weight * tenth
  ⟨p.value + digitValue c * weight, weight⟩

/-- The value of a literal with the given digits before and behind the dot. -/
def value (whole fraction : List Char) : Binary32 :=
  (fraction.foldl Cut.appendPlace ⟨wholeValue whole, 1⟩).value

/-! ## Reading -/

/-- The value of a run of digits and dots that starts with a digit.  A dot needs a digit behind
it, and a second dot is one too many; faults are placed relative to the start of the run. -/
def read (run : List Char) : Except PlacedFault Binary32 :=
  let whole := run.takeWhile Char.isDigit
  match run.dropWhile Char.isDigit with
  | [] => .ok (wholeValue whole)
  | _ :: rest =>
    let fraction := rest.takeWhile Char.isDigit
    if fraction.isEmpty then
      .error ⟨whole.length + 1, .missingFraction⟩
    else if fraction.length < rest.length then
      .error ⟨whole.length + 1 + fraction.length, .secondDot⟩
    else
      .ok (value whole fraction)

theorem read_eq_whole {digits : List Char} (h : ∀ c ∈ digits, c.isDigit) :
    read digits = .ok (wholeValue digits) := by
  have hdrop : digits.dropWhile Char.isDigit = [] := by
    rw [← List.append_nil digits, List.dropWhile_append_of_pos h]
    rfl
  have htake : digits.takeWhile Char.isDigit = digits := by
    rw [← List.append_nil digits, List.takeWhile_append_of_pos h]
    rfl
  simp only [read, hdrop, htake]

end Formula.Literal
