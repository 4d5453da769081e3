import Formula.Proofs.Grammar
import Formula.Proofs.Reduction

/-!
# Formula.Proofs.ReferenceTree

Formulas without sugar are converted and evaluated as their trees say.

Reading prices the operators of a layer of the grammar from the layer's tightness on, above
everything outside of its brackets.  So the parts of a formula are put in order one by one, and
what comes out is the listing of the tree, whatever text spells the formula:

* `emitAll_of_parses` — the tokens of a formula, their prices and their order;
* `Parses.eq` — a formula has one tree.
-/

namespace Formula

open Infix

/-- Operators bind as tight as their precedence says. -/
theorem BinaryOp.tier_eq_tightness (op : BinaryOp) :
    (Operation.binary op.symbol).tier = op.tightness := by
  cases op <;> rfl

/-- A formula is read from any state that expects a value.  Its operators are priced from its
layer on, and its tokens are put in the order of its tree. -/
theorem emitAll_of_parses {m : Bindings} {k : Nat} {units : List Lexeme} {t : Tree}
    (h : Parses m k units t) (level : Nat) :
    ∃ tokens, emitAll m ⟨level, false⟩ units = .ok ⟨tokens, ⟨level, true⟩⟩ ∧
      PricedFrom (level * Operation.nestingStep + k) tokens ∧
      (order tokens).map Token.unpriced = t.postOrder := by
  induction h generalizing level with
  | @literal run v hv =>
      refine ⟨[.number v], ?_, by simp, rfl⟩
      rw [emitAll_singleton, emit_eq_ok_iff]
      exact .literal (Literal.read_eq_ok_of_denotes hv)
  | @name letters v hv =>
      refine ⟨[.number v], ?_, by simp, rfl⟩
      rw [emitAll_singleton, emit_eq_ok_iff]
      exact .value hv
  | group _ ih =>
      obtain ⟨tokens, hread, hpriced, horder⟩ := ih (level + 1)
      have hgroup := emitAll_group (s := ⟨level, false⟩) hread rfl
      refine ⟨tokens, hgroup, hpriced.mono ?_, horder⟩
      simp only [Operation.nestingStep]
      omega
  | @call letters f units t hunbound hname _ ih =>
      obtain ⟨tokens, hread, hpriced, horder⟩ := ih level
      obtain rfl := Builtin.ofName?_eq_some_iff.1 hname
      refine ⟨.operator ((Operation.function f.name).priced level) :: tokens, ?_, ?_, ?_⟩
      · rw [emitAll_cons_of_emits (.call hunbound hname), hread]
        rfl
      · exact pricedFrom_operator_cons.2 ⟨Nat.le_refl _, hpriced.mono (by omega)⟩
      · rw [order_operator_cons hpriced, List.map_append, horder]
        rfl
  | @binary left right t u op _ _ ih₁ ih₂ =>
      obtain ⟨first, hfirst, hpriced₁, horder₁⟩ := ih₁ level
      obtain ⟨second, hsecond, hpriced₂, horder₂⟩ := ih₂ level
      have hprice : ((Operation.binary op.symbol).priced level).precedence =
          level * Operation.nestingStep + op.tightness := by
        rw [← op.tier_eq_tightness]
        rfl
      rw [← Nat.add_assoc] at hpriced₂
      rw [← hprice] at hpriced₁ hpriced₂ ⊢
      refine ⟨first ++ .operator ((Operation.binary op.symbol).priced level) :: second, ?_, ?_, ?_⟩
      · rw [emitAll_append_of_eq_ok hfirst, emitAll_cons_of_emits (.operator op), hsecond]
        rfl
      · rw [pricedFrom_append, pricedFrom_operator_cons]
        exact ⟨hpriced₁, Nat.le_refl _, hpriced₂.mono (Nat.le_succ _)⟩
      · rw [order_append_operator_cons hpriced₁ hpriced₂, List.map_append, List.map_append,
          horder₁, horder₂]
        rfl
  | tighter _ ih =>
      obtain ⟨tokens, hread, hpriced, horder⟩ := ih level
      exact ⟨tokens, hread, hpriced.mono (by omega), horder⟩

/-- A formula has one tree. -/
theorem Parses.eq {m : Bindings} {k : Nat} {units : List Lexeme} {t u : Tree}
    (ht : Parses m k units t) (hu : Parses m k units u) : t = u := by
  obtain ⟨tokens, hread, -, horder⟩ := emitAll_of_parses ht 0
  obtain ⟨tokens', hread', -, horder'⟩ := emitAll_of_parses hu 0
  rw [hread, Except.ok.injEq, Emission.mk.injEq] at hread'
  obtain rfl := hread'.1
  exact Tree.postOrder_injective (horder.symm.trans horder')

/-- A text that spells a formula is converted to the listing of the formula's one tree, and
evaluates to the value of that tree. -/
theorem toPostfix_spelled_eq_postOrder {m : Bindings} {units : List Lexeme} {text : String}
    (hderives : Derives m .atom .expr units) (hspells : Spells units text.toList) :
    ∃ t, (∀ u, Parses m 1 units u ↔ u = t) ∧
      (∃ p, toPostfix text m = .ok p ∧ p.tokens.map Token.unpriced = t.postOrder) ∧
      evaluate text m = .ok t.value := by
  obtain ⟨t, ht⟩ := exists_parses_of_derives hderives
  obtain ⟨tokens, hread, -, horder⟩ := emitAll_of_parses ht 0
  have hunits : Lexeme.ofText text.toList = units := ofText_eq_of_spells hspells
  have hpostfix : toPostfix text m = .ok (.ofInfix ⟨tokens⟩) := by
    rw [toPostfix_eq_ok_iff, convert_eq_ok_iff, hunits]
    exact ⟨ht.ne_nil, _, hread, rfl, rfl⟩
  refine ⟨t, fun u => ⟨fun hu => hu.eq ht, fun hu => hu ▸ ht⟩, ⟨_, hpostfix, horder⟩, ?_⟩
  rw [evaluate_eq_ok_iff, hunits]
  exact ⟨_, hread, rfl, Tree.reduceAll_of_unpriced_eq_postOrder horder []⟩

/-- The listing and the value of a formula with a call, a bracket, a bound name and three
tightnesses. -/
theorem toPostfix_spelled_eq_postOrder_call :
    let m : Bindings := Std.TreeMap.ofList [("x", (5 : Binary32))]
    let text := "1 + 3 * sqrt(x - 1)^2"
    let units : List Lexeme :=
      [.literal ['1'], .operator .add, .literal ['3'], .operator .mul, .name "sqrt", .opening,
        .name "x", .operator .sub, .literal ['1'], .closing, .operator .pow, .literal ['2']]
    Derives m .atom .expr units ∧ Spells units text.toList ∧
      ∃ t, (∀ u, Parses m 1 units u ↔ u = t) ∧
        (∃ p, toPostfix text m = .ok p ∧ p.tokens.map Token.unpriced = t.postOrder) ∧
        evaluate text m = .ok t.value := by
  intro m text units
  have hdigit (d : Char) (hd : d.isDigit) : Derives m .atom .app [.literal [d]] :=
    .atom (.literal (.whole (List.cons_ne_nil d []) (by simpa using hd)))
  have hx : Derives m .atom .expr [.name "x"] :=
    .app (.atom (.name (show m["x"]? = some 5 by decide +kernel)))
  have hgroup := (hx.binary .sub (hdigit '1' (by decide))).group
  have hcall : Derives m .atom .app (.name "sqrt" :: _) :=
    .call (f := .sqrt) (by decide +kernel) (by decide) hgroup
  have hderives : Derives m .atom .expr units := by
    have hsum := (hdigit '1' (by decide)).app.binary .add (hdigit '3' (by decide))
    exact (hsum.binary .mul hcall).binary .pow (hdigit '2' (by decide))
  have hspells : Spells units text.toList := by
    have hunits : Lexeme.ofText text.toList = units := by decide +kernel
    have hstray : ∀ c, .stray c ∉ Lexeme.ofText text.toList := by simp [hunits, units]
    exact hunits ▸ spells_ofText hstray
  exact ⟨hderives, hspells, toPostfix_spelled_eq_postOrder hderives hspells⟩

end Formula
