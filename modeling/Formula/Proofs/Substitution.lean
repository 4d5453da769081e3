import Formula.Proofs.Reduction

/-!
# Formula.Proofs.Substitution

Operands of one value may stand for each other, whatever stands around them.

An operand is anything that is read, in every state, as one value: a bound name, or a bracket
around a formula that has a value.  Everything in it outranks what waits in front of it, and what
follows it starts with an operator that does not outrank it.  So an operand is put in order for
itself, reduces to its value, and leaves no other trace.  In any text, then, a bracket may be
replaced by a name for its value:

* `head?_tokens_of_complete` — what follows a value starts with an operator of the same level;
* `order_operand` — the tokens of an operand stay together;
* `convert_bind_eval_congr` — operands of one value make no difference between lexemes.
-/

namespace Formula

open Infix

/-! ## Operands -/

/-- Lexemes that are read, in every state, as one operand of the value `v`. -/
def IsOperand (m : Bindings) (v : Binary32) (units : List Lexeme) : Prop :=
  ∀ s : State, ∃ part, emitAll m s units = .ok ⟨s.product ++ part, ⟨s.level, true⟩⟩ ∧
    PricedFrom ((s.level + 1) * Operation.nestingStep) part ∧
    Postfix.reduceAll [] (order part) = .ok [v]

theorem IsOperand.ne_nil {m : Bindings} {v : Binary32} {units : List Lexeme}
    (h : IsOperand m v units) : units ≠ [] := by
  rintro rfl
  obtain ⟨part, hread, -, -⟩ := h {}
  simp at hread

/-- A bound name is an operand. -/
theorem isOperand_name {m : Bindings} {x : String} {v : Binary32} (h : m[x]? = some v) :
    IsOperand m v [.name x] := by
  intro s
  refine ⟨[.number v], ?_, by simp, rfl⟩
  rw [emitAll_singleton, emit_eq_ok_iff]
  exact .value h

/-- A bracket around a formula with a value is an operand. -/
theorem isOperand_group {m : Bindings} {text : String} {v : Binary32}
    (h : evaluate text m = .ok v) :
    IsOperand m v (.opening :: (Lexeme.ofText text.toList ++ [.closing])) := by
  obtain ⟨e, hread, hlevel, hreduce⟩ := evaluate_eq_ok_iff.1 h
  intro s
  have hinside : emitAll m ⟨s.level + 1, false⟩ (Lexeme.ofText text.toList) =
      .ok (e.raise (s.level + 1)) := by
    simpa [State.raise] using emitAll_raise hread (s.level + 1)
  have hstate : (e.raise (s.level + 1)).state.level = s.level + 1 := by
    simp [Emission.raise, hlevel]
  refine ⟨e.tokens.map (Token.raise (s.level + 1)), emitAll_group hinside hstate,
    pricedFrom_map_raise _ _, ?_⟩
  rw [order_map_raise, Postfix.reduceAll_map_raise, hreduce]

/-! ## What follows an operand -/

/-- An operation is priced below the next bracket. -/
theorem Operation.precedenceAt_lt (op : Operation) (level : Nat) :
    op.precedenceAt level < (level + 1) * nestingStep := by
  have := op.tier_le
  simp only [precedenceAt, nestingStep, Nat.add_mul]
  omega

/-- What follows a value starts with an operator, and that is outranked by everything inside of
further brackets. -/
theorem head?_tokens_of_complete {m : Bindings} {level : Nat} {units : List Lexeme} {e : Emission}
    (h : emitAll m ⟨level, true⟩ units = .ok e) :
    ∀ t ∈ e.tokens.head?, ∃ o, t = .operator o ∧
      o.precedence < (level + 1) * Operation.nestingStep := by
  induction units generalizing level e with
  | nil =>
      obtain rfl := Except.ok.inj h
      simp
  | cons u units ih =>
      obtain ⟨e₁, e₂, h₁, h₂, rfl⟩ := emitAll_cons_eq_ok_iff.1 h
      have hpriced (op : Operation) (tokens : List Token) :
          ∀ t ∈ (Token.operator (op.priced level) :: tokens).head?, ∃ o, t = .operator o ∧
            o.precedence < (level + 1) * Operation.nestingStep := by
        intro t ht
        obtain rfl := Option.some.inj ht
        exact ⟨_, rfl, op.precedenceAt_lt level⟩
      cases h₁ with
      | value => exact hpriced _ _
      | call => exact hpriced _ _
      | operator op => exact hpriced _ _
      | opening => exact hpriced _ _
      | closing level complete =>
          intro t ht
          obtain ⟨o, rfl, ho⟩ := ih h₂ t ht
          refine ⟨o, rfl, Nat.lt_of_lt_of_le ho ?_⟩
          exact Nat.mul_le_mul_right _ (Nat.le_succ _)

/-! ## Exchanging operands -/

/-- The tokens of an operand stay together, between what settles before and what settles after it,
neither of which depends on the operand. -/
theorem order_operand {m : Bindings} {front back : List Lexeme} {e e' : Emission}
    (hfront : emitAll m {} front = .ok e) (hback : emitAll m ⟨e.state.level, true⟩ back = .ok e') :
    ∃ before behind, ∀ part, PricedFrom ((e.state.level + 1) * Operation.nestingStep) part →
      order (e.tokens ++ (e.state.product ++ part ++ e'.tokens)) =
        before ++ (order part ++ behind) := by
  let a := (({} : Postfix.Arrangement).arrange e.tokens).arrange e.state.product
  have hfits : a.Fits ⟨e.state.level, false⟩ :=
    Postfix.Arrangement.fits_arrange_product
      (Postfix.Arrangement.Fits.of_emitAll hfront (Postfix.Arrangement.fits_empty _))
  let behind := (({ pending := a.pending } : Postfix.Arrangement).arrange e'.tokens).toList
  refine ⟨a.settled.toList, behind, fun part hpart => ?_⟩
  have hsplit : order (e.tokens ++ (e.state.product ++ part ++ e'.tokens)) =
      (a.arrange (part ++ e'.tokens)).toList := by
    rw [← toList_arrange_empty, List.append_assoc, Postfix.Arrangement.arrange_append,
      Postfix.Arrangement.arrange_append]
  have hnext : ∀ t ∈ e'.tokens.head?, ∃ o, t = .operator o ∧
      o.precedence ≤ (e.state.level + 1) * Operation.nestingStep := by
    intro t ht
    obtain ⟨o, rfl, ho⟩ := head?_tokens_of_complete hback t ht
    exact ⟨o, rfl, Nat.le_of_lt ho⟩
  rw [hsplit]
  exact toList_arrange_append hpart (hfits.lt_of_incomplete rfl) hnext

/-- Operands of one value make no difference, whatever lexemes stand around them. -/
theorem convert_bind_eval_congr {m : Bindings} {v : Binary32} {units units' : List Lexeme}
    (h : IsOperand m v units) (h' : IsOperand m v units') (front back : List Lexeme) :
    (convert m (front ++ (units ++ back)) >>= Postfix.eval) =
      (convert m (front ++ (units' ++ back)) >>= Postfix.eval) := by
  have hne (operand : List Lexeme) (ho : IsOperand m v operand) :
      front ++ (operand ++ back) ≠ [] := by
    simp [ho.ne_nil]
  rw [convert, convert, if_neg (hne _ h), if_neg (hne _ h')]
  cases hfront : emitAll m {} front with
  | error fault =>
      simp only [tokensOf, emitAll_append_of_eq_error hfront]
  | ok e =>
      obtain ⟨part, hread, hpriced, hvalue⟩ := h e.state
      obtain ⟨part', hread', hpriced', hvalue'⟩ := h' e.state
      simp only [tokensOf, emitAll_append_of_eq_ok hfront, emitAll_append_of_eq_ok hread,
        emitAll_append_of_eq_ok hread']
      cases hback : emitAll m ⟨e.state.level, true⟩ back with
      | error fault => rfl
      | ok e' =>
          obtain ⟨before, behind, horder⟩ := order_operand hfront hback
          by_cases hlevel : e'.state.level = 0
          · simp only [Except.map, Emission.after, hlevel, if_true]
            have heval (operand : List Token)
                (hp : PricedFrom ((e.state.level + 1) * Operation.nestingStep) operand)
                (hv : Postfix.reduceAll [] (order operand) = .ok [v]) :
                (Postfix.ofInfix ⟨e.tokens ++ (e.state.product ++ operand ++ e'.tokens)⟩).eval =
                  Postfix.eval ⟨before ++ (.number v :: behind)⟩ := by
              rw [← Postfix.eval_append_append hv before behind, ← horder operand hp]
              rfl
            exact (heval part hpriced hvalue).trans (heval part' hpriced' hvalue').symm
          · simp only [Except.map, Emission.after, hlevel, if_false]

/-! ## Texts -/

/-- A bracket is cut out of any text, and what it holds is cut for itself. -/
theorem ofText_group (before inside behind : List Char) :
    Lexeme.ofText (before ++ '(' :: (inside ++ ')' :: behind)) =
      Lexeme.ofText before ++
        (.opening :: (Lexeme.ofText inside ++ [.closing]) ++ Lexeme.ofText behind) := by
  have hopening : Lexeme.ofText ['('] = [.opening] := Lexeme.ofText_spelling (u := .opening) trivial
  have hclosing : Lexeme.ofText [')'] = [.closing] := Lexeme.ofText_spelling (u := .closing) trivial
  rw [Lexeme.ofText_append_cons_of_isLone (by decide),
    Lexeme.ofText_append_cons_of_isLone (by decide), hopening, hclosing]
  simp

/-- A name between blanks is cut out of any text. -/
theorem ofText_blank_name_blank {x : String} (hx : x ≠ "" ∧ ∀ c ∈ x.toList, c.isAlpha)
    (before behind : List Char) :
    Lexeme.ofText (before ++ ' ' :: (x.toList ++ ' ' :: behind)) =
      Lexeme.ofText before ++ ([.name x] ++ Lexeme.ofText behind) := by
  have hblank : Lexeme.ofText [' '] = [] := Lexeme.ofText_singleton_of_isBlank (by decide)
  have hname : Lexeme.ofText x.toList = [.name x] := Lexeme.ofText_spelling (u := .name x) hx
  rw [Lexeme.ofText_append_cons_of_isLone (by decide),
    Lexeme.ofText_append_cons_of_isLone (by decide), hblank, hname]
  rfl

/-- A bracket around a formula with a value may be replaced by a name for that value in any text,
well formed or not: both texts have the same value, or fail for the same fault. -/
theorem evaluate_group_eq_evaluate_name {m : Bindings} {x s : String} {v : Binary32}
    (hx : x ≠ "" ∧ ∀ c ∈ x.toList, c.isAlpha) (hbound : m[x]? = some v)
    (hs : evaluate s m = .ok v) (A B : String) :
    (evaluate (A ++ "(" ++ s ++ ")" ++ B) m).mapError Failure.fault =
      (evaluate (A ++ " " ++ x ++ " " ++ B) m).mapError Failure.fault := by
  have hgroup : (A ++ "(" ++ s ++ ")" ++ B).toList =
      A.toList ++ '(' :: (s.toList ++ ')' :: B.toList) := by
    simp
  have hname : (A ++ " " ++ x ++ " " ++ B).toList =
      A.toList ++ ' ' :: (x.toList ++ ' ' :: B.toList) := by
    simp
  rw [mapError_evaluate, mapError_evaluate, hgroup, hname, ofText_group, ofText_blank_name_blank hx]
  exact convert_bind_eval_congr (isOperand_group hs) (isOperand_name hbound) _ _

/-- A bracket worth 4 may be replaced by `x`, bound to 4, also in a text that breaks off. -/
theorem evaluate_group_eq_evaluate_name_broken_off :
    let m : Bindings := Std.TreeMap.ofList [("x", (4 : Binary32))]
    ("x" ≠ "" ∧ ∀ c ∈ "x".toList, c.isAlpha) ∧ m["x"]? = some 4 ∧
      evaluate "(3 + 5) / 2" m = .ok 4 ∧
      (evaluate ("2 * " ++ "(" ++ "(3 + 5) / 2" ++ ")" ++ " -") m).mapError Failure.fault =
        (evaluate ("2 * " ++ " " ++ "x" ++ " " ++ " -") m).mapError Failure.fault := by
  intro m
  have hx : "x" ≠ "" ∧ ∀ c ∈ "x".toList, c.isAlpha :=
    ⟨by decide, List.forall_mem_singleton.2 (by decide)⟩
  have hbound : m["x"]? = some 4 := by decide +kernel
  have hs : evaluate "(3 + 5) / 2" m = .ok 4 := by decide +kernel
  exact ⟨hx, hbound, hs, evaluate_group_eq_evaluate_name hx hbound hs _ _⟩

end Formula
