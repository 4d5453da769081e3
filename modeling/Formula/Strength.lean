import Formula.Binary64
import Formula.Evaluate

/-!
# Formula.Strength

A quantity that may change over time, such as the strength of a charge: a constant, or a formula
of the elapsed time, which is rounded to single precision first.
-/

namespace Formula

/-- A constant, or a formula of the elapsed time `t`. -/
inductive Strength where
  | constant (value : Binary32)
  | formula (text : String)
deriving DecidableEq, Repr

namespace Strength

/-- The value after `elapsed` seconds. -/
def valueAt (elapsed : Binary64) : Strength → Except Failure Binary32
  | .constant value => .ok value
  | .formula text =>
    evaluate text (Bindings.standard.insert Bindings.timeName elapsed.toBinary32)

instance : ToString Strength where
  toString
    | .constant value => s!"Constant({value})"
    | .formula text => s!"Variable({text})"

/-- Numeric equality of constants; formulas are equal as texts. -/
def equal : Strength → Strength → Bool
  | .constant x, .constant y => x.equal y
  | .formula s, .formula t => s == t
  | _, _ => false

end Strength

end Formula
