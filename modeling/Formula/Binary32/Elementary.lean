import Formula.Binary64

/-!
# Formula.Binary32.Elementary

The elementary functions: sine, cosine, tangent and their inverses, exponential, natural
logarithm and power.  Each is computed in double precision, whose error is far below half a
single-precision step, and the result is rounded once more.

The nine functions stand for the single-precision routines of a mathematical library.  Not all of
those are correctly rounded, so the last bits of a result may differ from theirs: the logarithm of
seven and the arc cosine of zero are such cases.  No theorem depends on what the nine functions
compute; to the theory of formulas they are parameters.
-/

namespace Formula.Binary32

/-- The same number in double precision; widening is exact. -/
def toFloat (x : Binary32) : Float := (Float32.ofBits x.toBits).toFloat

/-- The single-precision number nearest to a computed one. -/
def ofFloat (x : Float) : Binary32 := Binary64.toBinary32 ⟨x.toBits⟩

def sin (x : Binary32) : Binary32 := ofFloat x.toFloat.sin

def cos (x : Binary32) : Binary32 := ofFloat x.toFloat.cos

def tan (x : Binary32) : Binary32 := ofFloat x.toFloat.tan

def asin (x : Binary32) : Binary32 := ofFloat x.toFloat.asin

def acos (x : Binary32) : Binary32 := ofFloat x.toFloat.acos

def atan (x : Binary32) : Binary32 := ofFloat x.toFloat.atan

def exp (x : Binary32) : Binary32 := ofFloat x.toFloat.exp

/-- The natural logarithm. -/
def log (x : Binary32) : Binary32 := ofFloat x.toFloat.log

/-- The power `x ^ y`.  Anything to the power zero is one, and so is one to any power, even where
the other operand is a NaN. -/
protected def pow (x y : Binary32) : Binary32 := ofFloat (x.toFloat.pow y.toFloat)

instance : HPow Binary32 Binary32 Binary32 := ⟨Binary32.pow⟩

end Formula.Binary32
