import Formula.Bindings
import Formula.Fault
import Formula.Postfix
import Formula.Text.Blank

/-!
# Formula.Evaluate

From the text of a formula to its postfix order and its value.

Blanks around a formula do not belong to it: places are counted in the trimmed text, which a
failure also quotes.  Faults that reading finds have a place; an empty formula, and faults found
while a sequence is reduced, have none.

* `evaluate_eq_bind` — evaluating is converting, then reducing.
-/

namespace Formula

/-- The text of a formula without the blanks around it. -/
def trimmed (text : String) : List Char := Text.trim text.toList

/-- The postfix order of a formula under given bindings. -/
def toPostfix (text : String) (bindings : Bindings) : Except Failure Postfix :=
  if (trimmed text).isEmpty then
    .error Fault.noInput.unplaced
  else
    match Infix.ofText bindings (trimmed text) with
    | .ok formula => .ok (.ofInfix formula)
    | .error found => .error (found.failure (String.ofList (trimmed text)))

/-- The value of a sequence; its faults have no place in a text. -/
def Postfix.value (p : Postfix) : Except Failure Binary32 := p.eval.mapError Fault.unplaced

/-- The value of a formula under given bindings. -/
def evaluate (text : String) (bindings : Bindings) : Except Failure Binary32 :=
  match toPostfix text bindings with
  | .ok p => p.value
  | .error failure => .error failure

theorem evaluate_eq_bind (text : String) (bindings : Bindings) :
    evaluate text bindings = toPostfix text bindings >>= Postfix.value := by
  unfold evaluate
  cases toPostfix text bindings <;> rfl

/-- Whether two outcomes are the same: equal failures, or successes that `equal` accepts. -/
def sameOutcome (equal : α → α → Bool) : Except Failure α → Except Failure α → Bool
  | .ok x, .ok y => equal x y
  | .error f, .error g => f == g
  | _, _ => false

end Formula
