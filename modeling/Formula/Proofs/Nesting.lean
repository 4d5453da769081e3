import Formula.Proofs.Substitution

/-!
# Formula.Proofs.Nesting

A whole formula inside further brackets.

Brackets are no tokens: all that they change is the level at which the operators inside of them are
read.  Each of those is priced higher by the same amount, so none changes its place in the postfix
order.  A closing bracket settles nothing; the operators that wait when it is read come last, as
they do where the text ends.

* `emitAll_enclosed` — a text inside `k` pairs of brackets is read as it is without them, at a level
  that is higher by `k`;
* `toPostfix_enclosed` — it has the same tokens in the same order, at higher precedences;
* `evaluate_enclosed` — it has the same value, or none for the same reason.
-/

namespace Formula

open Infix

/-- The text inside `k` pairs of brackets. -/
def enclosed (text : String) : Nat → String
  | 0 => text
  | k + 1 => "(" ++ enclosed text k ++ ")"

/-- The precedence that is stored with a token, if it is an operator. -/
def Token.precedence? : Token → Option Nat
  | .number _ => none
  | .operator o => some o.precedence

/-- Every further bracket raises a precedence by five. -/
theorem Token.precedence?_raise (k : Nat) (t : Token) :
    (t.raise k).precedence? = t.precedence?.map (· + 5 * k) := by
  cases t with
  | number value => rfl
  | operator o => rw [Nat.mul_comm]; rfl

variable {text : String} {m : Bindings}

/-- One more pair of brackets is one more lexeme at either end. -/
theorem ofText_enclosed_succ (text : String) (k : Nat) :
    Lexeme.ofText (enclosed text (k + 1)).toList =
      .opening :: (Lexeme.ofText (enclosed text k).toList ++ [.closing]) := by
  simpa [enclosed] using ofText_group [] (enclosed text k).toList []

/-- What is read at a level that is higher by `k` is read inside `k` pairs of brackets. -/
theorem emitAll_enclosed {level k : Nat} {e : Emission}
    (h : emitAll m ⟨level + k, false⟩ (Lexeme.ofText text.toList) = .ok e)
    (hlevel : e.state.level = level + k) :
    ∃ complete, emitAll m ⟨level, false⟩ (Lexeme.ofText (enclosed text k).toList) =
      .ok ⟨e.tokens, ⟨level, complete⟩⟩ := by
  -- The outermost pair comes off first, so the level inside of it is that of the hypothesis.
  induction k generalizing level with
  | zero =>
      obtain ⟨tokens, ⟨_, complete⟩⟩ := e
      obtain rfl := hlevel
      exact ⟨complete, h⟩
  | succ k ih =>
      rw [← Nat.add_assoc, Nat.add_right_comm] at h hlevel
      obtain ⟨complete, hinside⟩ := ih h hlevel
      have hgroup := emitAll_group (s := ⟨level, false⟩) hinside rfl
      rw [← ofText_enclosed_succ] at hgroup
      exact ⟨true, hgroup⟩

/-- A text that is converted is converted inside `k` pairs of brackets, to the tokens that it has
`k` levels higher. -/
theorem toPostfix_enclosed_eq_map_raise {p : Postfix} (h : toPostfix text m = .ok p) (k : Nat) :
    toPostfix (enclosed text k) m = .ok ⟨p.tokens.map (Token.raise k)⟩ := by
  obtain ⟨hne, e, hread, hlevel, rfl⟩ := convert_eq_ok_iff.1 (toPostfix_eq_ok_iff.1 h)
  have hraise : emitAll m ⟨0 + k, false⟩ (Lexeme.ofText text.toList) = .ok (e.raise k) :=
    emitAll_raise hread k
  have hraised : (e.raise k).state.level = 0 + k := congrArg (· + k) hlevel
  obtain ⟨complete, hinside⟩ := emitAll_enclosed hraise hraised
  rw [toPostfix_eq_ok_iff, convert_eq_ok_iff]
  refine ⟨?_, _, hinside, rfl, congrArg Postfix.mk (order_map_raise k e.tokens)⟩
  cases k with
  | zero => exact hne
  | succ k =>
      rw [ofText_enclosed_succ]
      exact List.cons_ne_nil _ _

/-- Brackets around a text that is converted keep its tokens and their order, and raise every
precedence by five for each pair, whether or not the text has a value. -/
theorem toPostfix_enclosed {p : Postfix} (h : toPostfix text m = .ok p) (k : Nat) :
    ∃ q, toPostfix (enclosed text k) m = .ok q ∧
      q.tokens.map Token.unpriced = p.tokens.map Token.unpriced ∧
      q.tokens.map Token.precedence? = p.tokens.map fun t => t.precedence?.map (· + 5 * k) := by
  refine ⟨_, toPostfix_enclosed_eq_map_raise h k, ?_, ?_⟩
  · rw [List.map_map]
    exact List.map_congr_left fun t _ => t.unpriced_raise k
  · rw [List.map_map]
    exact List.map_congr_left fun t _ => t.precedence?_raise k

/-- A text that lacks operands, with a bracket and a product that is not written. -/
theorem toPostfix_enclosed_incomplete :
    let m : Bindings := {}
    let p : Postfix := ⟨[.number 2, .number 1, .operator ⟨.binary '+', 6⟩,
      .operator ⟨.binary '^', 3⟩, .operator ⟨.binary '*', 2⟩]⟩
    toPostfix "2(1+)^" m = .ok p ∧
      ∃ q, toPostfix "((2(1+)^))" m = .ok q ∧
        q.tokens.map Token.unpriced = p.tokens.map Token.unpriced ∧
        q.tokens.map Token.precedence? = [none, none, some 16, some 13, some 12] := by
  intro m p
  have hconvert : toPostfix "2(1+)^" m = .ok p := by decide +kernel
  exact ⟨hconvert, toPostfix_enclosed hconvert 2⟩

/-- Brackets around a text that is converted do not change what it is evaluated to. -/
theorem evaluate_enclosed {p : Postfix} (h : toPostfix text m = .ok p) (k : Nat) :
    evaluate (enclosed text k) m = evaluate text m := by
  have heval : Postfix.eval ⟨p.tokens.map (Token.raise k)⟩ = p.eval := by
    simp only [Postfix.eval, Postfix.reduceAll_map_raise]
  simp only [evaluate, toPostfix_enclosed_eq_map_raise h, h, Postfix.value, heval]

end Formula
