import Formula.Builtin
import Formula.Fault
import Formula.Infix
import Formula.Token

/-!
# Formula.Postfix

A formula in postfix order: every operator follows its operands.

The order is found by holding operators back until one arrives that does not bind tighter, and is
reduced to a value with a stack of operands.  A sequence may also be given as such, with any
symbols, names and precedences; reducing it looks at no precedence.

* `Arrangement.arrange_append` — tokens are arranged one part of a sequence after the other;
* `eval_eq_ok_iff` — a sequence has a value exactly when reducing it leaves that value alone.
-/

namespace Formula

/-- Tokens in postfix order, or any tokens that are to be reduced as if they were. -/
structure Postfix where
  tokens : List Token
deriving DecidableEq, Repr

namespace Postfix

/-! ## From infix to postfix order -/

/-- A sequence that is being put in order. -/
structure Arrangement where
  /-- Tokens whose place is final. -/
  settled : Array Token := #[]
  /-- Operators that wait for their right operand, the latest first. -/
  pending : List Operator := []
deriving DecidableEq, Repr

namespace Arrangement

/-- The next token in reading order.  An operator settles those before it that bind at least as
tight, so that equals are taken from left to right. -/
def push (a : Arrangement) : Token → Arrangement
  | .number value => { a with settled := a.settled.push (.number value) }
  | .operator op =>
    { settled := a.settled ++
        (a.pending.takeWhile fun o => op.precedence ≤ o.precedence).map Token.operator
      pending := op :: a.pending.dropWhile fun o => op.precedence ≤ o.precedence }

/-- Tokens in reading order, one after the other. -/
def arrange (a : Arrangement) (tokens : List Token) : Arrangement := tokens.foldl push a

theorem arrange_append (a : Arrangement) (first second : List Token) :
    a.arrange (first ++ second) = (a.arrange first).arrange second :=
  List.foldl_append

/-- All tokens, with the operators that still waited at the end. -/
def toList (a : Arrangement) : List Token := a.settled.toList ++ a.pending.map Token.operator

end Arrangement

/-- The tokens of a formula in postfix order. -/
def ofInfix (formula : Infix) : Postfix := ⟨(({} : Arrangement).arrange formula.tokens).toList⟩

/-! ## Reduction -/

/-- Reduces one token on a stack of operands, the latest first.  The name of a function is looked
up before its operand is asked for; the operands of a symbol are asked for before it is looked
up. -/
def reduce (stack : List Binary32) : Token → Except Fault (List Binary32)
  | .number value => .ok (value :: stack)
  | .operator ⟨.binary symbol, _⟩ =>
    match stack with
    | right :: left :: rest =>
      match BinaryOp.ofSymbol? symbol with
      | some op => .ok (op.apply left right :: rest)
      | none => .error (.unknownSymbol symbol)
    | _ => .error .incomplete
  | .operator ⟨.function name, _⟩ =>
    match Builtin.ofName? name with
    | none => .error (.unknownFunction name)
    | some f =>
      match stack with
      | operand :: rest => .ok (f.apply operand :: rest)
      | [] => .error .incomplete

/-- Reduces tokens one after the other. -/
def reduceAll (stack : List Binary32) (tokens : List Token) : Except Fault (List Binary32) :=
  tokens.foldlM reduce stack

theorem reduceAll_cons (stack : List Binary32) (token : Token) (tokens : List Token) :
    reduceAll stack (token :: tokens) =
      reduce stack token >>= fun stack' => reduceAll stack' tokens :=
  rfl

theorem reduceAll_append (stack : List Binary32) (first second : List Token) :
    reduceAll stack (first ++ second) =
      reduceAll stack first >>= fun stack' => reduceAll stack' second :=
  List.foldlM_append

theorem reduceAll_append_of_eq_ok {stack stack' : List Binary32} {first : List Token}
    (h : reduceAll stack first = .ok stack') (second : List Token) :
    reduceAll stack (first ++ second) = reduceAll stack' second := by
  rw [reduceAll_append, h]
  rfl

@[simp] theorem reduceAll_singleton (stack : List Binary32) (token : Token) :
    reduceAll stack [token] = reduce stack token := by
  show reduce stack token >>= pure = _
  rw [bind_pure]

/-- The value of a sequence: what reducing it leaves, if that is a single number. -/
def eval (p : Postfix) : Except Fault Binary32 :=
  match reduceAll [] p.tokens with
  | .ok [value] => .ok value
  | .ok _ => .error .incomplete
  | .error fault => .error fault

theorem eval_eq_ok_iff {p : Postfix} {value : Binary32} :
    p.eval = .ok value ↔ reduceAll [] p.tokens = .ok [value] := by
  unfold eval
  split <;> simp_all

/-! ## Text and equality -/

instance : ToString Postfix where
  toString p := " ".intercalate (p.tokens.map toString)

/-- Numeric equality, token by token. -/
def equal (p q : Postfix) : Bool :=
  p.tokens.length == q.tokens.length && (p.tokens.zip q.tokens).all fun (s, t) => s.equal t

end Postfix

end Formula
