import Formula.Bindings
import Formula.Builtin
import Formula.Lexeme
import Formula.Literal
import Formula.Token

/-!
# Formula.Infix

A formula as a sequence of tokens in reading order, with its sugar spelled out:

1. a bound name is the number it is bound to;
2. a sign, where a value should stand, follows the number zero: `-x` is `0 - x`;
3. a name or a bracket right after a value follows a product: `2x` is `2 * x`;
4. brackets are gone, and every operator is priced by the number of them open around it.

Reading goes from left to right and stops at the first fault.  A closing bracket always completes
a value, whatever stands inside; that values and operators add up is left to the evaluation.

* `read_append` — reading is done one part of a text after the other.
-/

namespace Formula

/-- Tokens in reading order. -/
structure Infix where
  tokens : List Token
deriving DecidableEq, Repr

namespace Infix

/-! ## Progress of a reading -/

/-- What has been read so far. -/
structure Progress where
  tokens : Array Token := #[]
  /-- Offsets of the open brackets, innermost first. -/
  openings : List Nat := []
  /-- Whether a value has just been completed. -/
  complete : Bool := false
deriving DecidableEq, Repr

namespace Progress

/-- The number of open brackets. -/
def level (p : Progress) : Nat := p.openings.length

/-- A number has been read. -/
def number (p : Progress) (value : Binary32) : Progress :=
  { p with tokens := p.tokens.push (.number value), complete := true }

/-- An operator has been read; its right operand is to come. -/
def operator (p : Progress) (op : Operation) : Progress :=
  { p with tokens := p.tokens.push (.operator (op.priced p.level)), complete := false }

/-- A binary operator has been read. -/
def binary (p : Progress) (op : BinaryOp) : Progress := p.operator (.binary op.symbol)

/-- A completed value is a factor of what comes next. -/
def factor (p : Progress) : Progress := if p.complete then p.binary .mul else p

/-- A bracket has been opened at `offset`. -/
def opening (p : Progress) (offset : Nat) : Progress :=
  { p with openings := offset :: p.openings, complete := false }

/-- The innermost bracket has been closed, which leaves the brackets `outer`. -/
def closing (p : Progress) (outer : List Nat) : Progress :=
  { p with openings := outer, complete := true }

end Progress

/-! ## Reading -/

/-- Reads one lexeme. -/
def step (bindings : Bindings) (p : Progress) (u : PlacedLexeme) :
    Except PlacedFault Progress :=
  match u.lexeme with
  | .literal run =>
    if p.complete then
      .error ⟨u.offset, .adjacentDigit⟩
    else
      match Literal.read run with
      | .ok value => .ok (p.number value)
      | .error found => .error ⟨u.offset + found.offset, found.fault⟩
  | .name letters =>
    match bindings[letters]? with
    | some value => .ok (p.factor.number value)
    | none =>
      if (Builtin.ofName? letters).isSome then
        .ok (p.factor.operator (.function letters))
      else
        .error ⟨u.offset, .unknownFunction letters⟩
  | .operator op =>
    if p.complete then .ok (p.binary op)
    else if op.isSign then .ok ((p.number 0).binary op)
    else .error ⟨u.offset, .missingOperand op⟩
  | .opening => .ok (p.factor.opening u.offset)
  | .closing =>
    match p.openings with
    | [] => .error ⟨u.offset, .unmatchedBracket⟩
    | _ :: outer => .ok (p.closing outer)
  | .stray c => .error ⟨u.offset, .strayCharacter c⟩

/-- Reads lexemes one after the other. -/
def read (bindings : Bindings) (p : Progress) (lexemes : List PlacedLexeme) :
    Except PlacedFault Progress :=
  lexemes.foldlM (step bindings) p

theorem read_cons (bindings : Bindings) (p : Progress) (u : PlacedLexeme)
    (lexemes : List PlacedLexeme) :
    read bindings p (u :: lexemes) = step bindings p u >>= fun q => read bindings q lexemes :=
  rfl

theorem read_append (bindings : Bindings) (p : Progress) (first second : List PlacedLexeme) :
    read bindings p (first ++ second) =
      read bindings p first >>= fun q => read bindings q second :=
  List.foldlM_append

/-- The tokens read, if no bracket is left open; else the innermost open one is at fault. -/
def Progress.finish (p : Progress) : Except PlacedFault Infix :=
  match p.openings with
  | [] => .ok ⟨p.tokens.toList⟩
  | innermost :: _ => .error ⟨innermost, .unmatchedBracket⟩

/-- The tokens of a text under given bindings. -/
def ofText (bindings : Bindings) (text : List Char) : Except PlacedFault Infix := do
  (← read bindings {} (PlacedLexeme.ofText text)).finish

end Infix

end Formula
