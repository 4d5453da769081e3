import Formula.Binary32.Decimal

/-!
# Formula.Token

The tokens of a formula whose sugar is spelled out: numbers and operators.

An operator carries a precedence, fixed when it is read.  It grows with the number of brackets
open at that point, by more than the spread of the tiers, so that every operator inside a
bracket outranks every operator outside of it and brackets themselves need no token.

* `precedenceAt_lt_precedenceAt` — a deeper operator outranks a shallower one, whatever they are.
-/

namespace Formula

/-! ## Operations -/

/-- What an operator does.  A token may carry any symbol and any name; whether there is such an
operation shows when the token is reduced. -/
inductive Operation where
  /-- Two operands joined by a symbol. -/
  | binary (symbol : Char)
  /-- A named function of one operand. -/
  | function (name : String)
deriving DecidableEq, Repr

namespace Operation

/-- Precedence outside of all brackets. -/
def tier : Operation → Nat
  | .function _ => 4
  | .binary '^' => 3
  | .binary '*' | .binary '/' | .binary '%' => 2
  | .binary _ => 1

theorem tier_pos (op : Operation) : 1 ≤ op.tier := by
  unfold tier; split <;> decide

theorem tier_le (op : Operation) : op.tier ≤ 4 := by
  unfold tier; split <;> decide

/-- How far one bracket raises a precedence. -/
def nestingStep : Nat := 5

/-- Precedence inside `level` brackets. -/
def precedenceAt (op : Operation) (level : Nat) : Nat := level * nestingStep + op.tier

/-- A deeper operator outranks a shallower one. -/
theorem precedenceAt_lt_precedenceAt (op op' : Operation) {level level' : Nat}
    (h : level < level') : op.precedenceAt level < op'.precedenceAt level' := by
  have := op.tier_le
  have := op'.tier_pos
  simp only [precedenceAt, nestingStep]
  omega

instance : ToString Operation where
  toString
    | .binary symbol => s!"BinaryOperator({symbol})"
    | .function name => s!"Function({name})"

end Operation

/-! ## Operators and tokens -/

/-- An operation with the precedence it was read with. -/
structure Operator where
  operation : Operation
  precedence : Nat
deriving DecidableEq, Repr

/-- The operator for an operation read inside `level` brackets. -/
def Operation.priced (op : Operation) (level : Nat) : Operator := ⟨op, op.precedenceAt level⟩

/-- A number, or an operator that waits for its operands. -/
inductive Token where
  /-- A literal, or the value of a bound name. -/
  | number (value : Binary32)
  | operator (op : Operator)
deriving DecidableEq, Repr

namespace Token

/-- What a token stands for, its precedence aside. -/
def unpriced : Token → Binary32 ⊕ Operation
  | .number value => .inl value
  | .operator op => .inr op.operation

/-- Numeric equality of tokens: numbers compare as numbers, so a NaN differs from itself and the
two zeros are equal. -/
def equal : Token → Token → Bool
  | .number x, .number y => x.equal y
  | .operator o, .operator p => o == p
  | _, _ => false

instance : ToString Token where
  toString
    | .number value => s!"Number({value})"
    | .operator op => toString op.operation

end Token

end Formula
