import Formula.Binary32.Arithmetic
import Formula.Binary32.Elementary

/-!
# Formula.BinaryOp

The six binary operators, their symbols and what they compute.
-/

namespace Formula

/-- A binary operator; `mod` is the remainder of truncated division. -/
inductive BinaryOp where
  | add
  | sub
  | mul
  | div
  | mod
  | pow
deriving DecidableEq, Repr

namespace BinaryOp

/-- The character an operator is written with. -/
def symbol : BinaryOp → Char
  | add => '+'
  | sub => '-'
  | mul => '*'
  | div => '/'
  | mod => '%'
  | pow => '^'

/-- The operator written with a character. -/
def ofSymbol? : Char → Option BinaryOp
  | '+' => some add
  | '-' => some sub
  | '*' => some mul
  | '/' => some div
  | '%' => some mod
  | '^' => some pow
  | _ => none

@[simp] theorem ofSymbol?_symbol (op : BinaryOp) : ofSymbol? op.symbol = some op := by
  cases op <;> rfl

theorem ofSymbol?_eq_some_iff {c : Char} {op : BinaryOp} :
    ofSymbol? c = some op ↔ c = op.symbol := by
  refine ⟨fun h => ?_, fun h => h ▸ ofSymbol?_symbol op⟩
  unfold ofSymbol? at h
  split at h <;> cases h <;> rfl

/-- Whether the operator also stands for a sign: in front of a value it then subtracts the value
from zero, or adds it to zero. -/
def isSign : BinaryOp → Bool
  | add | sub => true
  | mul | div | mod | pow => false

/-- The value of an operator on its left and its right operand. -/
def apply : BinaryOp → Binary32 → Binary32 → Binary32
  | add, x, y => x + y
  | sub, x, y => x - y
  | mul, x, y => x * y
  | div, x, y => x / y
  | mod, x, y => x % y
  | pow, x, y => x ^ y

instance : ToString BinaryOp := ⟨fun op => op.symbol.toString⟩

end BinaryOp

end Formula
