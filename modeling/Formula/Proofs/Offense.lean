import Formula.Proofs.Reduction

/-!
# Formula.Proofs.Offense

Which token a sequence without a value fails for.

A sequence is reduced from left to right.  Whether a token is at fault shows from what it is and
from how many values stand before it, and as long as no token is at fault, that is how many more
numbers than binary operators there are.  So the leftmost token at fault decides what is said about
the sequence; if there is none, all that can be wrong is the number of values at the end:

* `exists_reduce_eq_error_iff` — a token cannot be reduced exactly if it offends;
* `noneOffends_iff` — tokens can be reduced exactly if none of them offends;
* `failsWith_iff_leftmost_offends` — what a sequence fails for, and that it fails for nothing else.
-/

namespace Formula

/-! ## Tokens at fault -/

/-- A token is at fault where `depth` values stand before it, and this is the class of the fault and
what is said about it.  A binary operator needs its operands before its symbol is looked up; the
name of a function is looked up before it needs its operand. -/
inductive Offends (depth : Int) : Token → FaultKind → String → Prop
  | lacksOperand {symbol : Char} {precedence : Nat} :
      depth < 2 →
        Offends depth (.operator ⟨.binary symbol, precedence⟩) .invalidExpression
          "Invalid expression"
  | unknownSymbol {symbol : Char} {precedence : Nat} :
      2 ≤ depth → symbol ∉ ['+', '-', '*', '/', '%', '^'] →
        Offends depth (.operator ⟨.binary symbol, precedence⟩) .unexpectedSymbol
          ("Unexpected symbol '" ++ symbol.toString ++ "'")
  | unknownFunction {name : String} {precedence : Nat} :
      (∀ f : Builtin, f.name ≠ name) →
        Offends depth (.operator ⟨.function name, precedence⟩) .unknownFunction
          ("Unknown function '" ++ name ++ "'")
  | lacksArgument (f : Builtin) {precedence : Nat} :
      depth < 1 →
        Offends depth (.operator ⟨.function f.name, precedence⟩) .invalidExpression
          "Invalid expression"

/-- No token is at fault where it stands. -/
def NoneOffends (tokens : List Token) : Prop :=
  ∀ front t back kind message, tokens = front ++ t :: back → ¬Offends (balance front) t kind message

/-- The class of a fault, and what is said about it. -/
def Fault.IsReported (fault : Fault) (kind : FaultKind) (message : String) : Prop :=
  fault.kind = kind ∧ fault.message = message

/-- A sequence has no value for a fault that is reported like this, without a place. -/
def Postfix.FailsWith (p : Postfix) (kind : FaultKind) (message : String) : Prop :=
  ∃ failure, p.value = .error failure ∧ failure.fault.IsReported kind message ∧
    failure.location = none

/-! ## One token -/

theorem BinaryOp.ofSymbol?_eq_none_iff {symbol : Char} :
    ofSymbol? symbol = none ↔ symbol ∉ ['+', '-', '*', '/', '%', '^'] := by
  unfold ofSymbol?
  split <;> simp_all

theorem Builtin.ofName?_eq_none_iff {name : String} :
    ofName? name = none ↔ ∀ f : Builtin, f.name ≠ name := by
  simp [ofName?, mem_all]

namespace Postfix

/-- A token cannot be reduced on a stack exactly if it offends where as many values stand before
it. -/
theorem exists_reduce_eq_error_iff {stack : List Binary32} {t : Token} {kind : FaultKind}
    {message : String} :
    (∃ fault, reduce stack t = .error fault ∧ fault.IsReported kind message) ↔
      Offends stack.length t kind message := by
  constructor
  · rintro ⟨fault, h, rfl, rfl⟩
    cases t with
    | number value => cases h
    | operator o =>
        obtain ⟨op, precedence⟩ := o
        cases op with
        | binary symbol =>
            rcases stack with _ | ⟨right, _ | ⟨left, rest⟩⟩
            · obtain rfl := Except.error.inj h
              exact .lacksOperand (by simp)
            · obtain rfl := Except.error.inj h
              exact .lacksOperand (by simp)
            · cases hop : BinaryOp.ofSymbol? symbol with
              | some op => simp [reduce, hop] at h
              | none =>
                  obtain rfl : .unknownSymbol symbol = fault := by simpa [reduce, hop] using h
                  exact .unknownSymbol (by simp; omega) (BinaryOp.ofSymbol?_eq_none_iff.1 hop)
        | function name =>
            cases hf : Builtin.ofName? name with
            | none =>
                obtain rfl : .unknownFunction name = fault := by simpa [reduce, hf] using h
                exact .unknownFunction (Builtin.ofName?_eq_none_iff.1 hf)
            | some f =>
                obtain rfl := Builtin.ofName?_eq_some_iff.1 hf
                cases stack with
                | nil =>
                    obtain rfl : .incomplete = fault := by simpa [reduce] using h
                    exact .lacksArgument f (by simp)
                | cons operand rest => simp [reduce] at h
  · intro h
    cases h with
    | lacksOperand hdepth =>
        refine ⟨.incomplete, ?_, rfl, rfl⟩
        rcases stack with _ | ⟨right, _ | ⟨left, rest⟩⟩
        · rfl
        · rfl
        · simp only [List.length_cons] at hdepth
          omega
    | @unknownSymbol symbol precedence hdepth hsymbol =>
        refine ⟨.unknownSymbol symbol, ?_, rfl, rfl⟩
        rcases stack with _ | ⟨right, _ | ⟨left, rest⟩⟩
        · contradiction
        · contradiction
        · simp [reduce, BinaryOp.ofSymbol?_eq_none_iff.2 hsymbol]
    | @unknownFunction name precedence hname =>
        refine ⟨.unknownFunction name, ?_, rfl, rfl⟩
        simp [reduce, Builtin.ofName?_eq_none_iff.2 hname]
    | lacksArgument f hdepth =>
        refine ⟨.incomplete, ?_, rfl, rfl⟩
        cases stack with
        | nil => simp [reduce]
        | cons operand rest =>
            simp only [List.length_cons] at hdepth
            omega

/-! ## Many tokens -/

/-- Where tokens have been reduced, as many values are left as their balance says. -/
theorem length_eq_balance {front : List Token} {stack : List Binary32}
    (h : reduceAll [] front = .ok stack) : (stack.length : Int) = balance front := by
  simpa using balance_of_reduceAll_eq_ok h

/-- Tokens can be reduced exactly if none of them offends. -/
theorem noneOffends_iff {tokens : List Token} :
    NoneOffends tokens ↔ ∃ stack, reduceAll [] tokens = .ok stack := by
  constructor
  · intro h
    cases hall : reduceAll [] tokens with
    | ok stack => exact ⟨stack, rfl⟩
    | error fault =>
        obtain ⟨front, t, back, stack, htokens, hfront, ht⟩ := reduceAll_eq_error_iff.1 hall
        have hoffends : Offends stack.length t fault.kind fault.message :=
          exists_reduce_eq_error_iff.1 ⟨fault, ht, rfl, rfl⟩
        rw [length_eq_balance hfront] at hoffends
        exact absurd hoffends (h front t back _ _ htokens)
  · rintro ⟨stack, hall⟩ front t back kind message rfl hoffends
    obtain ⟨stack₁, hfront, hrest⟩ := reduceAll_append_eq_ok_iff.1 hall
    obtain ⟨stack₂, ht, -⟩ := reduceAll_cons_eq_ok_iff.1 hrest
    rw [← length_eq_balance hfront] at hoffends
    obtain ⟨fault, herror, -⟩ := exists_reduce_eq_error_iff.2 hoffends
    rw [reduce_eq_ok_iff.2 ht] at herror
    cases herror

/-- Reducing fails for what is reported about the leftmost token that offends. -/
theorem exists_reduceAll_eq_error_iff {tokens : List Token} {kind : FaultKind} {message : String} :
    (∃ fault, reduceAll [] tokens = .error fault ∧ fault.IsReported kind message) ↔
      ∃ front t back, tokens = front ++ t :: back ∧ NoneOffends front ∧
        Offends (balance front) t kind message := by
  constructor
  · rintro ⟨fault, h, hreported⟩
    obtain ⟨front, t, back, stack, htokens, hfront, ht⟩ := reduceAll_eq_error_iff.1 h
    refine ⟨front, t, back, htokens, noneOffends_iff.2 ⟨stack, hfront⟩, ?_⟩
    rw [← length_eq_balance hfront]
    exact exists_reduce_eq_error_iff.1 ⟨fault, ht, hreported⟩
  · rintro ⟨front, t, back, htokens, hnone, hoffends⟩
    obtain ⟨stack, hfront⟩ := noneOffends_iff.1 hnone
    rw [← length_eq_balance hfront] at hoffends
    obtain ⟨fault, ht, hreported⟩ := exists_reduce_eq_error_iff.2 hoffends
    exact ⟨fault, reduceAll_eq_error_iff.2 ⟨front, t, back, stack, htokens, hfront, ht⟩, hreported⟩

/-! ## Sequences -/

variable {p : Postfix} {kind : FaultKind} {message : String}

/-- The faults of a sequence have no place. -/
theorem failsWith_iff_exists_eval :
    p.FailsWith kind message ↔ ∃ fault, p.eval = .error fault ∧ fault.IsReported kind message := by
  unfold FailsWith value
  cases p.eval <;> simp [Except.mapError, Fault.unplaced]

/-- A sequence without a value cannot be reduced, or does not leave one value alone. -/
theorem eval_eq_error_iff {fault : Fault} :
    p.eval = .error fault ↔
      reduceAll [] p.tokens = .error fault ∨
        ∃ stack, reduceAll [] p.tokens = .ok stack ∧ stack.length ≠ 1 ∧ fault = .incomplete := by
  unfold eval
  split
  · next value hreduce => simp [hreduce]
  · next stack hne hreduce =>
    have hlength : stack.length ≠ 1 := by
      intro hone
      obtain ⟨value, rfl⟩ := List.length_eq_one_iff.1 hone
      exact hne value rfl
    simp [hreduce, hlength, eq_comm]
  · next found hreduce => simp [hreduce]

/-- What a sequence fails for: the leftmost token that offends, or else the number of values it
leaves. -/
theorem failsWith_iff :
    p.FailsWith kind message ↔
      (∃ front t back, p.tokens = front ++ t :: back ∧ NoneOffends front ∧
        Offends (balance front) t kind message) ∨
      NoneOffends p.tokens ∧ balance p.tokens ≠ 1 ∧ kind = .invalidExpression ∧
        message = "Invalid expression" := by
  simp only [failsWith_iff_exists_eval, eval_eq_error_iff, or_and_right, exists_or,
    exists_reduceAll_eq_error_iff]
  refine or_congr_right ⟨?_, ?_⟩
  · rintro ⟨fault, ⟨stack, hreduce, hlength, rfl⟩, rfl, rfl⟩
    refine ⟨noneOffends_iff.2 ⟨stack, hreduce⟩, ?_, rfl, rfl⟩
    rw [← length_eq_balance hreduce]
    omega
  · rintro ⟨hnone, hbalance, rfl, rfl⟩
    obtain ⟨stack, hreduce⟩ := noneOffends_iff.1 hnone
    rw [← length_eq_balance hreduce] at hbalance
    exact ⟨.incomplete, ⟨stack, hreduce, by omega, rfl⟩, rfl, rfl⟩

/-- A sequence has a value exactly if no token offends and one value is left. -/
theorem exists_value_eq_ok_iff :
    (∃ v, p.value = .ok v) ↔ NoneOffends p.tokens ∧ balance p.tokens = 1 := by
  have hvalue (v : Binary32) : p.value = .ok v ↔ reduceAll [] p.tokens = .ok [v] := by
    rw [← eval_eq_ok_iff, value]
    cases p.eval <;> simp [Except.mapError]
  simp only [hvalue, noneOffends_iff]
  constructor
  · rintro ⟨v, hreduce⟩
    exact ⟨⟨[v], hreduce⟩, (length_eq_balance hreduce).symm⟩
  · rintro ⟨⟨stack, hreduce⟩, hbalance⟩
    rw [← length_eq_balance hreduce] at hbalance
    obtain ⟨v, rfl⟩ := List.length_eq_one_iff.1 (by omega : stack.length = 1)
    exact ⟨v, hreduce⟩

/-- A sequence of any tokens fails for the leftmost one that offends.  If there is none, it fails
because it leaves any number of values but one, or it has a value; and no failure has a place. -/
theorem failsWith_iff_leftmost_offends (p : Postfix) :
    (∀ kind message, p.FailsWith kind message ↔
      (∃ front t back, p.tokens = front ++ t :: back ∧ NoneOffends front ∧
        Offends (balance front) t kind message) ∨
      NoneOffends p.tokens ∧ balance p.tokens ≠ 1 ∧ kind = .invalidExpression ∧
        message = "Invalid expression") ∧
    ((∃ v, p.value = .ok v) ↔ NoneOffends p.tokens ∧ balance p.tokens = 1) ∧
    ∀ failure, p.value = .error failure → failure.location = none := by
  refine ⟨fun kind message => failsWith_iff, exists_value_eq_ok_iff, fun failure h => ?_⟩
  unfold value at h
  cases heval : p.eval <;> simp [heval, Except.mapError] at h
  exact h ▸ rfl

/-- The unknown name comes before the operator that lacks an operand. -/
example :
    (⟨[.number 1, .operator ⟨.function "ln", 4⟩, .operator ⟨.binary '+', 1⟩]⟩ : Postfix).value =
      .error ⟨.unknownFunction "ln", none⟩ := by
  decide +kernel

end Postfix

end Formula
