import Formula.Proofs.Underflow

/-!
# Formula.Proofs.Sums

Where a sum outside of all brackets can be cut.

No operator is priced below one that adds or subtracts outside of all brackets.  When such an
operator arrives, then, everything before it is settled, whatever brackets and functions are still
pending there, and all that is left of it is its value.  So the rest of a text, well formed or not,
sees nothing of the left operand but that value:

* `pricedFrom_one_of_emitAll` — no operator is priced below 1;
* `evaluate_eq_ok_iff_exists_tokens` — a text with a value ends in a completed value;
* `mapError_evaluate_append_sign` — what becomes of a value with a sign and more text behind it;
* `evaluate_append_sign_eq_evaluate_name` — the left operand of a sum may be replaced by a name for
  its value, without a bracket.
-/

namespace Formula

open Infix

variable {m : Bindings}

/-! ## The left operand -/

/-- No operator that is read is priced below 1. -/
theorem pricedFrom_one_of_emitAll {s : State} {units : List Lexeme} {e : Emission}
    (h : emitAll m s units = .ok e) : PricedFrom 1 e.tokens := by
  intro o ho
  obtain ⟨op, level, -, rfl⟩ := exists_priced_of_emitAll h ho
  have := op.tier_pos
  simp only [Operation.priced, Operation.precedenceAt]
  omega

/-- An operator that adds or subtracts outside of all brackets is priced at 1. -/
theorem precedence_priced_of_isSign {op : BinaryOp} (hsign : op.isSign) :
    ((Operation.binary op.symbol).priced 0).precedence = 1 := by
  cases op with
  | add | sub => rfl
  | mul | div | mod | pow => exact absurd hsign (by decide)

/-- A text has a value exactly if it is read to a completed value outside of all brackets, and its
tokens in postfix order reduce to that value alone. -/
theorem evaluate_eq_ok_iff_exists_tokens {text : String} {v : Binary32} :
    evaluate text m = .ok v ↔
      ∃ tokens, emitAll m {} (Lexeme.ofText text.toList) = .ok ⟨tokens, ⟨0, true⟩⟩ ∧
        Postfix.reduceAll [] (order tokens) = .ok [v] := by
  rw [evaluate_eq_ok_iff]
  constructor
  · rintro ⟨⟨tokens, level, complete⟩, hread, rfl, hreduce⟩
    have hbalance : balance tokens = 1 := Postfix.balance_eq_one_of_reduceAll_order hreduce
    obtain ⟨-, rfl : complete = true⟩ := (balance_eq_one_iff hread).1 hbalance
    exact ⟨tokens, hread, hreduce⟩
  · rintro ⟨tokens, hread, hreduce⟩
    exact ⟨_, hread, rfl, hreduce⟩

/-! ## What follows it -/

/-- What becomes of the value `v`, outside of all brackets, with an operator and further lexemes
behind it. -/
def continued (m : Bindings) (v : Binary32) (op : BinaryOp) (units : List Lexeme) :
    Except Fault Binary32 := do
  let e ← emitAll m ⟨0, false⟩ units
  if e.state.level = 0 then
    Postfix.eval
      ⟨.number v :: order (.operator ((Operation.binary op.symbol).priced 0) :: e.tokens)⟩
  else .error .unmatchedBracket

/-- Of the left operand of a sum, only its value matters. -/
theorem convert_append_sign {front : List Lexeme} {tokens : List Token} {v : Binary32}
    (hfront : emitAll m {} front = .ok ⟨tokens, ⟨0, true⟩⟩)
    (hreduce : Postfix.reduceAll [] (order tokens) = .ok [v]) {op : BinaryOp} (hsign : op.isSign)
    (units : List Lexeme) :
    (convert m (front ++ .operator op :: units) >>= Postfix.eval) = continued m v op units := by
  have hne : front ++ .operator op :: units ≠ [] := by simp
  rw [convert, if_neg hne, tokensOf, emitAll_append_of_eq_ok hfront,
    emitAll_cons_of_emits (.operator op), continued]
  cases hunits : emitAll m ⟨0, false⟩ units with
  | error fault => simp [Except.map, bind, Except.bind]
  | ok e =>
      by_cases hlevel : e.state.level = 0
      · have horder : order (tokens ++ .operator ((Operation.binary op.symbol).priced 0) ::
            e.tokens) = order tokens ++
              order (.operator ((Operation.binary op.symbol).priced 0) :: e.tokens) := by
          refine order_append (pricedFrom_one_of_emitAll hfront) fun t ht => ?_
          obtain rfl := Option.some.inj ht
          exact ⟨_, rfl, Nat.le_of_eq (precedence_priced_of_isSign hsign)⟩
        have heval := Postfix.eval_append_append hreduce []
          (order (.operator ((Operation.binary op.symbol).priced 0) :: e.tokens))
        rw [List.nil_append, List.nil_append, ← horder] at heval
        simpa [hlevel, Except.map, Emission.after, bind, Except.bind, Postfix.ofInfix,
          toList_arrange_empty] using heval
      · simp [hlevel, Except.map, Emission.after, bind, Except.bind]

/-! ## Texts -/

/-- What becomes of a text with a value when a sign and more text follow it. -/
theorem mapError_evaluate_append_sign {s : String} {v : Binary32} (hs : evaluate s m = .ok v)
    {op : BinaryOp} (hsign : op.isSign) (r : String) :
    (evaluate (s ++ op.symbol.toString ++ r) m).mapError Failure.fault =
      continued m v op (Lexeme.ofText r.toList) := by
  obtain ⟨tokens, hread, hreduce⟩ := evaluate_eq_ok_iff_exists_tokens.1 hs
  have htext : (s ++ op.symbol.toString ++ r).toList = s.toList ++ op.symbol :: r.toList := by
    simp
  have hop : Lexeme.ofText [op.symbol] = [.operator op] :=
    Lexeme.ofText_spelling (u := .operator op) trivial
  rw [mapError_evaluate, htext, Lexeme.ofText_append_cons_of_isLone (Lexeme.isLone_symbol op), hop,
    List.singleton_append]
  exact convert_append_sign hread hreduce hsign _

/-- A bound name has the value it is bound to, also with a blank behind it. -/
theorem evaluate_name_blank {x : String} {v : Binary32} (hx : x ≠ "" ∧ ∀ c ∈ x.toList, c.isAlpha)
    (hbound : m[x]? = some v) : evaluate (x ++ " ") m = .ok v := by
  have hunits : Lexeme.ofText (x ++ " ").toList = [.name x] := by
    have hblank : ∀ c ∈ " ".toList, Text.isBlank c := List.forall_mem_singleton.2 (by decide)
    rw [String.toList_append, Lexeme.ofText_append_blank hblank]
    exact Lexeme.ofText_spelling (u := .name x) hx
  rw [evaluate_eq_ok_iff_exists_tokens, hunits]
  refine ⟨[.number v], ?_, rfl⟩
  rw [emitAll_singleton, emit_eq_ok_iff]
  exact .value hbound

/-- The left operand of a sum outside of all brackets may be replaced by a name for its value, with
any text behind the sign: both texts have the same value, or fail for the same fault. -/
theorem evaluate_append_sign_eq_evaluate_name {x s : String} {v : Binary32}
    (hx : x ≠ "" ∧ ∀ c ∈ x.toList, c.isAlpha) (hbound : m[x]? = some v)
    (hs : evaluate s m = .ok v) {op : String} (hop : op = "+" ∨ op = "-") (r : String) :
    (evaluate (s ++ op ++ r) m).mapError Failure.fault =
      (evaluate (x ++ " " ++ op ++ r) m).mapError Failure.fault := by
  have hname := evaluate_name_blank hx hbound
  obtain ⟨sign, hsign, rfl⟩ : ∃ sign : BinaryOp, sign.isSign ∧ op = sign.symbol.toString := by
    rcases hop with rfl | rfl
    · exact ⟨.add, rfl, rfl⟩
    · exact ⟨.sub, rfl, rfl⟩
  exact (mapError_evaluate_append_sign hs hsign r).trans
    (mapError_evaluate_append_sign hname hsign r).symm

/-- A product with a function and a bracket in it, and behind the sign a text that breaks off. -/
theorem evaluate_append_sign_eq_evaluate_name_broken_off :
    let m : Bindings := Std.TreeMap.ofList [("x", (6 : Binary32))]
    ("x" ≠ "" ∧ ∀ c ∈ "x".toList, c.isAlpha) ∧ m["x"]? = some 6 ∧
      evaluate "3sqrt((1+3))" m = .ok 6 ∧ ("-" = "+" ∨ "-" = "-") ∧
      (evaluate ("3sqrt((1+3))" ++ "-" ++ "2^(1") m).mapError Failure.fault =
        (evaluate ("x" ++ " " ++ "-" ++ "2^(1") m).mapError Failure.fault := by
  intro m
  have hx : "x" ≠ "" ∧ ∀ c ∈ "x".toList, c.isAlpha :=
    ⟨by decide, List.forall_mem_singleton.2 (by decide)⟩
  have hbound : m["x"]? = some 6 := by decide +kernel
  have hs : evaluate "3sqrt((1+3))" m = .ok 6 := by decide +kernel
  have hop : "-" = "+" ∨ "-" = "-" := .inr rfl
  exact ⟨hx, hbound, hs, hop, evaluate_append_sign_eq_evaluate_name hx hbound hs hop _⟩

end Formula
