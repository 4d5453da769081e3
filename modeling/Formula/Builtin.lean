import Formula.Binary32.Arithmetic
import Formula.Binary32.Elementary

/-!
# Formula.Builtin

The functions that every formula can call, each of one argument.

* `ofName?_eq_some_iff` — a name is looked up to the function of that name.
-/

namespace Formula

/-- A built-in function; `log` is the natural logarithm. -/
inductive Builtin where
  | abs
  | acos
  | asin
  | atan
  | ceil
  | cos
  | exp
  | floor
  | log
  | sign
  | sin
  | sqrt
  | tan
deriving DecidableEq, Repr

namespace Builtin

/-- All functions, in the order of their names. -/
def all : List Builtin :=
  [abs, acos, asin, atan, ceil, cos, exp, floor, log, sign, sin, sqrt, tan]

theorem mem_all (f : Builtin) : f ∈ all := by
  cases f <;> simp [all]

/-- The name a function is called by. -/
def name : Builtin → String
  | abs => "abs"
  | acos => "acos"
  | asin => "asin"
  | atan => "atan"
  | ceil => "ceil"
  | cos => "cos"
  | exp => "exp"
  | floor => "floor"
  | log => "log"
  | sign => "sign"
  | sin => "sin"
  | sqrt => "sqrt"
  | tan => "tan"

/-- The function with a given name. -/
def ofName? (name : String) : Option Builtin := all.find? (·.name == name)

@[simp] theorem ofName?_name (f : Builtin) : ofName? f.name = some f := by
  cases f <;> rfl

theorem ofName?_eq_some_iff {name : String} {f : Builtin} :
    ofName? name = some f ↔ f.name = name := by
  refine ⟨fun h => ?_, fun h => h ▸ ofName?_name f⟩
  simpa using List.find?_some h

/-- The value of a function at its argument. -/
def apply : Builtin → Binary32 → Binary32
  | abs => Binary32.abs
  | acos => Binary32.acos
  | asin => Binary32.asin
  | atan => Binary32.atan
  | ceil => Binary32.ceil
  | cos => Binary32.cos
  | exp => Binary32.exp
  | floor => Binary32.floor
  | log => Binary32.log
  | sign => Binary32.sign
  | sin => Binary32.sin
  | sqrt => Binary32.sqrt
  | tan => Binary32.tan

end Builtin

end Formula
