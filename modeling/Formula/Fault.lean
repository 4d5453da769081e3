import Formula.BinaryOp

/-!
# Formula.Fault

Why a formula fails: the fault, and the place it was found at.

The place is printed below the message as the text that was read and, on a line of its own, a
caret under the character at fault.
-/

namespace Formula

/-! ## Faults -/

/-- The classes of faults. -/
inductive FaultKind where
  /-- There is nothing but blanks. -/
  | noInput
  /-- A character that starts no lexeme, or a malformed literal. -/
  | unexpectedCharacter
  /-- A literal right after a value. -/
  | unexpectedDigit
  /-- An operator without an operand to its left, or a symbol that is no operator. -/
  | unexpectedSymbol
  | mismatchedBracket
  /-- A name that is neither bound nor a function. -/
  | unknownFunction
  /-- Operators and values do not add up to one value. -/
  | invalidExpression
deriving DecidableEq, Repr

/-- What is wrong with a formula. -/
inductive Fault where
  | noInput
  /-- A character that starts no lexeme. -/
  | strayCharacter (c : Char)
  /-- A second dot in a literal. -/
  | secondDot
  /-- A literal's dot without a digit behind it. -/
  | missingFraction
  /-- A literal right after a value. -/
  | adjacentDigit
  /-- An operator, no sign, where a value should stand. -/
  | missingOperand (op : BinaryOp)
  | unmatchedBracket
  | unknownFunction (name : String)
  /-- A binary operator token whose symbol stands for no operator. -/
  | unknownSymbol (symbol : Char)
  /-- An operator lacks an operand, or there is not exactly one value left. -/
  | incomplete
deriving DecidableEq, Repr

namespace Fault

/-- The class a fault belongs to. -/
def kind : Fault → FaultKind
  | noInput => .noInput
  | strayCharacter _ | secondDot | missingFraction => .unexpectedCharacter
  | adjacentDigit => .unexpectedDigit
  | missingOperand _ | unknownSymbol _ => .unexpectedSymbol
  | unmatchedBracket => .mismatchedBracket
  | unknownFunction _ => .unknownFunction
  | incomplete => .invalidExpression

/-- What is said about a fault, in one line. -/
def message : Fault → String
  | noInput => "No input"
  | strayCharacter c => s!"Unexpected symbol '{c}'"
  | secondDot => "Unexpected character '.'"
  | missingFraction => "Expected digit after decimal dot"
  | adjacentDigit => "Unexpected digit"
  | missingOperand op => s!"Unexpected symbol '{op}'. Number expected"
  | unmatchedBracket => "Mismatched bracket found"
  | unknownFunction name => s!"Unknown function '{name}'"
  | unknownSymbol symbol => s!"Unexpected symbol '{symbol}'"
  | incomplete => "Invalid expression"

end Fault

/-! ## Failures -/

/-- A place in a text, counted in characters from its start. -/
structure Location where
  input : String
  offset : Nat
deriving DecidableEq, Repr

instance : ToString Location where
  toString place := place.input ++ "\n" ++ String.ofList (List.replicate place.offset ' ') ++ "^"

/-- A fault and, where it concerns a place in the text, that place. -/
structure Failure where
  fault : Fault
  location : Option Location
deriving DecidableEq, Repr

/-- A failure of the formula as a whole. -/
def Fault.unplaced (fault : Fault) : Failure := ⟨fault, none⟩

/-- A fault found at an offset of the text being read. -/
structure PlacedFault where
  offset : Nat
  fault : Fault
deriving DecidableEq, Repr

/-- The failure to read `input`. -/
def PlacedFault.failure (found : PlacedFault) (input : String) : Failure :=
  ⟨found.fault, some ⟨input, found.offset⟩⟩

instance : ToString Failure where
  toString failure :=
    let place := match failure.location with
      | none => ""
      | some place => s!"\n{place}"
    "Parser Error: " ++ failure.fault.message ++ place

end Formula
