import Formula.Postfix

/-!
# Formula.Tree

Expression trees: what a formula means, apart from the order its tokens are written in.

A tree is listed in postfix order by listing its operands, left before right, and then its
operator.  Precedences play no part in that, so the listing is one of operations.

* `reduceAll_of_unpriced_eq_postOrder` — reducing the listing of a tree leaves the value of the
  tree on top of whatever was on the stack before.
-/

namespace Formula

/-- A number, a function of a tree, or a binary operator between two trees. -/
inductive Tree where
  | number (value : Binary32)
  | call (f : Builtin) (operand : Tree)
  | binary (op : BinaryOp) (left right : Tree)
deriving DecidableEq, Repr

namespace Tree

/-- What a tree evaluates to. -/
def value : Tree → Binary32
  | number value => value
  | call f operand => f.apply operand.value
  | binary op left right => op.apply left.value right.value

/-- The operations of a tree, every one behind its operands. -/
def postOrder : Tree → List (Binary32 ⊕ Operation)
  | number value => [.inl value]
  | call f operand => operand.postOrder ++ [.inr (.function f.name)]
  | binary op left right => left.postOrder ++ (right.postOrder ++ [.inr (.binary op.symbol)])

/-- Tokens that stand for one operation are one operator. -/
private theorem eq_operator_of_map_unpriced {tokens : List Token} {op : Operation}
    (h : tokens.map Token.unpriced = [.inr op]) :
    ∃ precedence, tokens = [.operator ⟨op, precedence⟩] := by
  obtain ⟨token, rest, rfl, htoken, hrest⟩ := List.map_eq_cons_iff.1 h
  obtain rfl := List.map_eq_nil_iff.1 hrest
  cases token with
  | number value => cases htoken
  | operator o =>
    obtain ⟨operation, precedence⟩ := o
    cases htoken
    exact ⟨precedence, rfl⟩

theorem reduceAll_of_unpriced_eq_postOrder {tree : Tree} {tokens : List Token}
    (h : tokens.map Token.unpriced = tree.postOrder) (stack : List Binary32) :
    Postfix.reduceAll stack tokens = .ok (tree.value :: stack) := by
  induction tree generalizing tokens stack with
  | number value =>
    obtain ⟨token, rest, rfl, htoken, hrest⟩ := List.map_eq_cons_iff.1 h
    obtain rfl := List.map_eq_nil_iff.1 hrest
    cases token with
    | number value' => cases htoken; rfl
    | operator o => cases htoken
  | call f operand ih =>
    obtain ⟨first, last, rfl, hfirst, hlast⟩ := List.map_eq_append_iff.1 h
    obtain ⟨precedence, rfl⟩ := eq_operator_of_map_unpriced hlast
    rw [Postfix.reduceAll_append_of_eq_ok (ih hfirst stack)]
    simp [Postfix.reduce, value]
  | binary op left right ihl ihr =>
    obtain ⟨first, rest, rfl, hfirst, hrest⟩ := List.map_eq_append_iff.1 h
    obtain ⟨second, last, rfl, hsecond, hlast⟩ := List.map_eq_append_iff.1 hrest
    obtain ⟨precedence, rfl⟩ := eq_operator_of_map_unpriced hlast
    rw [Postfix.reduceAll_append_of_eq_ok (ihl hfirst stack),
      Postfix.reduceAll_append_of_eq_ok (ihr hsecond _)]
    simp [Postfix.reduce, value]

end Tree

end Formula
