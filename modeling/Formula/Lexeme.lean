import Formula.BinaryOp
import Formula.Text.Blank

/-!
# Formula.Lexeme

The units a formula is written in: literals, names, operators and brackets, with blanks between
them as one likes.

A text is cut into runs of characters that belong together: letters join letters, digits and dots
join digits and dots, and any other character stands alone.  The first character of a run says
what the run is.  Only ASCII letters and digits count; every character that can start nothing is
a lexeme of its own, so that the text up to it can still be read.
-/

namespace Formula

/-! ## Lexemes -/

/-- A unit of a written formula. -/
inductive Lexeme where
  /-- A run of digits and dots that starts with a digit. -/
  | literal (run : List Char)
  /-- A run of letters. -/
  | name (letters : String)
  | operator (op : BinaryOp)
  | opening
  | closing
  /-- A character that starts no lexeme. -/
  | stray (c : Char)
deriving DecidableEq, Repr

namespace Lexeme

/-- A character that literals are made of. -/
def isNumeric (c : Char) : Bool := c.isDigit || c == '.'

/-- Whether the second of two neighbouring characters continues the run of the first. -/
def joins (c d : Char) : Bool := c.isAlpha && d.isAlpha || isNumeric c && isNumeric d

/-- The lexeme of a run with the first character `c`, or none if the run is blank. -/
def ofRun? (c : Char) (rest : List Char) : Option Lexeme :=
  if Text.isBlank c then none
  else if c.isDigit then some (.literal (c :: rest))
  else if c.isAlpha then some (.name (String.ofList (c :: rest)))
  else match BinaryOp.ofSymbol? c with
    | some op => some (.operator op)
    | none =>
      if c = '(' then some .opening
      else if c = ')' then some .closing
      else some (.stray c)

end Lexeme

/-! ## Lexemes of a text -/

/-- A lexeme and the offset of its first character. -/
structure PlacedLexeme where
  offset : Nat
  lexeme : Lexeme
deriving DecidableEq, Repr

namespace PlacedLexeme

/-- The lexeme of a run whose characters carry their offsets. -/
def ofRun? : List (Char × Nat) → Option PlacedLexeme
  | [] => none
  | (c, offset) :: rest => (Lexeme.ofRun? c (rest.map Prod.fst)).map fun lexeme => ⟨offset, lexeme⟩

/-- The lexemes of a text in reading order. -/
def ofText (text : List Char) : List PlacedLexeme :=
  (text.zipIdx.splitBy fun p q => Lexeme.joins p.1 q.1).filterMap ofRun?

end PlacedLexeme

end Formula
