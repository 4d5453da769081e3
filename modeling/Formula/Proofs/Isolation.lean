import Formula.Proofs.Substitution
import Formula.Proofs.Underflow

/-!
# Formula.Proofs.Isolation

What a bracket keeps to itself.

Everything inside a bracket outranks what waits in front of it, so no operator of the surroundings
comes between.  But all of them share one stack.  A bracket whose values and operators do not add up
spoils any formula around it.  One where they do, and which has no value for itself nevertheless,
opens with two functions in a row.  The first of them is applied before it has an argument, so it
takes a value from in front of the bracket if there is one.

* `balance_eq_one_of_evaluate_group_eq_ok` — in a formula with a value, the tokens of every bracket
  add up to one value;
* `exists_evaluate_sign_group_eq_ok` — if they do, a sign in front of the bracket makes it a formula
  with a value;
* `forall_evaluate_group_eq_error_iff` — so these are the brackets that some surroundings rescue.
-/

namespace Formula

open Infix

variable {m : Bindings} {s : String} {e : Emission}

/-- In a formula with a value, the tokens of every bracket add up to one value. -/
theorem balance_eq_one_of_evaluate_group_eq_ok {A B : String} {v : Binary32}
    (hs : emitAll m {} (Lexeme.ofText s.toList) = .ok e)
    (h : evaluate (A ++ "(" ++ s ++ ")" ++ B) m = .ok v) : balance e.tokens = 1 := by
  obtain ⟨whole, hwhole, -, hreduce⟩ := evaluate_eq_ok_iff.1 h
  have hbalance : balance whole.tokens = 1 := Postfix.balance_eq_one_of_reduceAll_order hreduce
  have hunits : Lexeme.ofText (A ++ "(" ++ s ++ ")" ++ B).toList =
      Lexeme.ofText A.toList ++
        .opening :: (Lexeme.ofText s.toList ++ .closing :: Lexeme.ofText B.toList) := by
    have hgroup := ofText_group A.toList s.toList B.toList
    simpa using hgroup
  obtain ⟨hvacancies, -⟩ := (balance_eq_one_iff hwhole).1 hbalance
  have hinside : vacancies m false
      (Lexeme.ofText s.toList ++ .closing :: Lexeme.ofText B.toList) = 0 := by
    rw [hunits, vacancies_append_cons] at hvacancies
    exact (Nat.add_eq_zero_iff.1 hvacancies).2
  rw [show false = ({} : State).complete from rfl, vacancies_append_of_emitAll hs,
    Nat.add_eq_zero_iff] at hinside
  -- The bracket is not vacant, so a value has been completed before it is closed.
  have hcomplete : e.state.complete = true := by
    cases hc : e.state.complete with
    | true => rfl
    | false => simp [vacancies, hc] at hinside
  exact (balance_eq_one_iff hs).2 ⟨hinside.1, hcomplete⟩

/-- If the tokens of a bracket add up to one value, there is a value to a sign and that bracket. -/
theorem exists_evaluate_sign_group_eq_ok (hs : emitAll m {} (Lexeme.ofText s.toList) = .ok e)
    (hlevel : e.state.level = 0) (hbalance : balance e.tokens = 1) :
    ∃ v, evaluate ("+" ++ "(" ++ s ++ ")" ++ "") m = .ok v := by
  obtain ⟨hvacancies, hcomplete⟩ := (balance_eq_one_iff hs).1 hbalance
  have hunits : Lexeme.ofText ("+" ++ "(" ++ s ++ ")" ++ "").toList =
      .operator .add :: .opening :: (Lexeme.ofText s.toList ++ [.closing]) := by
    have hplus : Lexeme.ofText ['+'] = [.operator .add] := by decide
    have hgroup := ofText_group ['+'] s.toList []
    rw [hplus] at hgroup
    simpa using hgroup
  -- The sign completes no value, so the bracket is read as the first one in a text.
  have hgroup : emitAll m ⟨0, false⟩ (.opening :: (Lexeme.ofText s.toList ++ [.closing])) =
      .ok ⟨e.tokens.map (Token.raise 1), ⟨0, true⟩⟩ :=
    emitAll_group (e := e.raise 1) (emitAll_raise hs 1) (by simp [Emission.raise, hlevel])
  have hsign : Emits m {} (.operator .add)
      ⟨[.number 0, .operator ((Operation.binary BinaryOp.add.symbol).priced 0)], ⟨0, false⟩⟩ :=
    .sign rfl
  have hread := emitAll_cons_of_emits hsign
    (.opening :: (Lexeme.ofText s.toList ++ [.closing]))
  rw [hgroup, ← hunits] at hread
  refine exists_evaluate_eq_ok hread rfl ?_ ?_
  · have hinside := vacancies_append_of_emitAll hs [.closing]
    rw [show ({} : State).complete = false from rfl, hvacancies, hcomplete] at hinside
    rw [hunits]
    simpa [vacancies, Lexeme.completes] using hinside
  · rintro ⟨front, f, g, back, hfront, hf, -, hall⟩
    rw [hunits] at hfront
    cases front with
    | nil =>
        obtain ⟨rfl, -⟩ := List.cons.inj hfront
        cases hf
    | cons u front =>
        obtain ⟨rfl, -⟩ := List.cons.inj hfront
        rcases hall _ List.mem_cons_self with hu | hu <;> cases hu

/-- A text without a value has none in brackets either, whatever stands around them, unless its
tokens add up to one value.  It opens with two functions in a row then. -/
theorem forall_evaluate_group_eq_error_iff {p : Postfix} {failure : Failure}
    (hs : toPostfix s m = .ok p) (hfailure : evaluate s m = .error failure) :
    ((∀ A B : String, ∃ failure', evaluate (A ++ "(" ++ s ++ ")" ++ B) m = .error failure') ↔
        balance p.tokens ≠ 1) ∧
      (balance p.tokens = 1 → OpensWithCalls m (Lexeme.ofText s.toList)) := by
  obtain ⟨-, e, hread, hlevel, rfl⟩ := convert_eq_ok_iff.1 (toPostfix_eq_ok_iff.1 hs)
  have hbalance : balance (Postfix.ofInfix ⟨e.tokens⟩).tokens = balance e.tokens :=
    Postfix.balance_order e.tokens
  rw [hbalance]
  refine ⟨⟨fun hall hone => ?_, fun hne A B => ?_⟩, fun hone => ?_⟩
  · obtain ⟨v, hv⟩ := exists_evaluate_sign_group_eq_ok hread hlevel hone
    obtain ⟨failure', hfailure'⟩ := hall "+" ""
    cases hv.symm.trans hfailure'
  · cases hv : evaluate (A ++ "(" ++ s ++ ")" ++ B) m with
    | error failure' => exact ⟨failure', rfl⟩
    | ok v => exact absurd (balance_eq_one_of_evaluate_group_eq_ok hread hv) hne
  · obtain ⟨hvacancies, hcomplete⟩ := (balance_eq_one_iff hread).1 hone
    by_contra hcalls
    have hstate : e.state = ⟨0, true⟩ := by rw [← hlevel, ← hcomplete]
    obtain ⟨v, hv⟩ := exists_evaluate_eq_ok hread hstate hvacancies hcalls
    cases hv.symm.trans hfailure

/-- Two functions in a row have no value, and their tokens add up to one value. -/
theorem forall_evaluate_group_eq_error_iff_call :
    let p : Postfix := ⟨[.operator ((Operation.function "sqrt").priced 0), .number 4,
      .operator ((Operation.function "abs").priced 0)]⟩
    toPostfix "sqrt abs 4" {} = .ok p ∧
      evaluate "sqrt abs 4" {} = .error Fault.incomplete.unplaced ∧
      ((∀ A B : String, ∃ failure',
          evaluate (A ++ "(" ++ "sqrt abs 4" ++ ")" ++ B) {} = .error failure') ↔
        balance p.tokens ≠ 1) ∧
      (balance p.tokens = 1 → OpensWithCalls {} (Lexeme.ofText "sqrt abs 4".toList)) := by
  intro p
  have hs : toPostfix "sqrt abs 4" {} = .ok p := by decide +kernel
  have hfailure : evaluate "sqrt abs 4" {} = .error Fault.incomplete.unplaced := by decide +kernel
  exact ⟨hs, hfailure, forall_evaluate_group_eq_error_iff hs hfailure⟩

/-- A bracket without a value of its own takes one from in front of it. -/
theorem not_forall_evaluate_group_eq_error :
    ¬∀ (m : Bindings) (s : String) (p : Postfix) (failure : Failure),
      toPostfix s m = .ok p → evaluate s m = .error failure →
        ∀ A B : String, ∃ failure', evaluate (A ++ "(" ++ s ++ ")" ++ B) m = .error failure' := by
  intro hall
  have hs : toPostfix "sqrt abs 4" {} =
      .ok ⟨[.operator ((Operation.function "sqrt").priced 0), .number 4,
        .operator ((Operation.function "abs").priced 0)]⟩ := by decide +kernel
  have hfailure : evaluate "sqrt abs 4" {} = .error Fault.incomplete.unplaced := by decide +kernel
  have hvalue : evaluate ("1+" ++ "(" ++ "sqrt abs 4" ++ ")" ++ "") {} = .ok 5 := by
    decide +kernel
  obtain ⟨failure', hfailure'⟩ := hall _ _ _ _ hs hfailure "1+" ""
  cases hvalue.symm.trans hfailure'

end Formula
