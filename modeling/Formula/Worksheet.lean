import Formula.Evaluate

/-!
# Formula.Worksheet

Commands on one set of bindings: binding and unbinding names, and evaluating formulas under the
bindings made so far.
-/

namespace Formula

namespace Worksheet

/-- What can be asked of a worksheet. -/
inductive Command where
  | bind (name : String) (value : Binary32)
  | unbind (name : String)
  | list
  | evaluate (text : String)
  /-- Binds the name to the value of the formula, if it has one. -/
  | assign (name : String) (text : String)
  | convert (text : String)
deriving DecidableEq, Repr

/-- What a command answers. -/
inductive Reply where
  /-- What the name was bound to before. -/
  | previous (value : Option Binary32)
  | bindings (all : Bindings)
  | outcome (value : Except Failure Binary32)
  | sequence (order : Except Failure Postfix)

/-- Carries out one command: the bindings after it, and its reply. -/
def perform (bindings : Bindings) : Command → Bindings × Reply
  | .bind name value => (bindings.insert name value, .previous bindings[name]?)
  | .unbind name => (bindings.erase name, .previous bindings[name]?)
  | .list => (bindings, .bindings bindings)
  | .evaluate text => (bindings, .outcome (Formula.evaluate text bindings))
  | .assign name text =>
    match Formula.evaluate text bindings with
    | .ok value => (bindings.insert name value, .outcome (.ok value))
    | .error failure => (bindings, .outcome (.error failure))
  | .convert text => (bindings, .sequence (toPostfix text bindings))

/-- Carries out commands in order: the bindings at the end, and one reply for each. -/
def run (bindings : Bindings) : List Command → Bindings × List Reply
  | [] => (bindings, [])
  | command :: commands =>
    let (bindings', reply) := perform bindings command
    let (final, replies) := run bindings' commands
    (final, reply :: replies)

end Worksheet

end Formula
