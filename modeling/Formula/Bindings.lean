import Std.Data.TreeMap.Basic
import Formula.Binary32.Basic

/-!
# Formula.Bindings

Names and the values bound to them.  Any text may be bound; a formula can mention only names made
of letters.
-/

namespace Formula

/-- Names with their values, in the order of the names. -/
abbrev Bindings := Std.TreeMap String Binary32

namespace Bindings

/-- The name of the elapsed time. -/
def timeName : String := "t"

/-- The circle constant to single precision, `0x40490fdb`. -/
def pi : Binary32 := .ofBits 0x40490fdb

/-- Euler's number to single precision, `0x402df854`. -/
def euler : Binary32 := .ofBits 0x402df854

/-- The bindings a formula of the elapsed time starts with; the time itself is zero. -/
def standard : Bindings := .ofList [(timeName, 0), ("pi", pi), ("e", euler)]

end Bindings

end Formula
