import Formula.Evaluate

/-!
# Formula.Journal

What is noted down while a formula is evaluated: its postfix order, if there is one, and then its
value or the reason that it has none.  The postfix order is noted for the trimmed text, the
outcome for the text as it was given.
-/

namespace Formula.Journal

/-- How much attention a record asks for. -/
inductive Level where
  | trace
  | debug
deriving DecidableEq, Repr

/-- One line of the journal. -/
structure Record where
  level : Level
  text : String
deriving DecidableEq, Repr

/-- The record of a conversion; one that fails leaves none. -/
def ofConversion (text : String) : Except Failure Postfix → List Record
  | .ok p =>
    let input := String.ofList (trimmed text)
    [⟨.trace, s!"postfix for `{input}`: {p}"⟩]
  | .error _ => []

/-- The record of an evaluation; one that fails is noted for debugging. -/
def ofOutcome (text : String) : Except Failure Binary32 → Record
  | .ok value => ⟨.trace, s!"`{text}` = {value}"⟩
  | .error failure => ⟨.debug, s!"failed to evaluate `{text}`: {failure}"⟩

/-- The records of one evaluation, in order. -/
def ofEvaluation (text : String) (bindings : Bindings) : List Record :=
  ofConversion text (toPostfix text bindings) ++ [ofOutcome text (evaluate text bindings)]

end Formula.Journal
