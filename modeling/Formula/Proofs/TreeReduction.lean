import Formula.Proofs.Reduction

/-!
# Formula.Proofs.TreeReduction

A sequence of tokens has a value exactly if it lists a tree.

Any symbol, name and price may stand in a sequence.  Whatever can be reduced, though, is reduced as
the trees would be that the values on the stack come from: a number is a leaf, and an operator joins
the trees it finds on top.  So nothing is left out of account, and nothing is counted twice:

* `Reduces.exists_trees` — reducing a token adds its operation to the listing of the stack;
* `exists_trees_of_reduceAll` — so does reducing many, one after the other;
* `eval_eq_ok_iff_exists_postOrder` — the sequences with a value are the listings of trees.
-/

namespace Formula

namespace Tree

/-- The listings of the trees on a stack, from the bottom to the top. -/
def listing (trees : List Tree) : List (Binary32 ⊕ Operation) :=
  trees.reverse.flatMap postOrder

@[simp] theorem listing_nil : listing [] = [] := rfl

@[simp] theorem listing_cons (t : Tree) (trees : List Tree) :
    listing (t :: trees) = listing trees ++ t.postOrder := by
  simp [listing]

end Tree

namespace Postfix

/-- A token that is reduced on the values of trees leaves the values of trees, and its operation
comes behind their operations. -/
theorem Reduces.exists_trees {trees : List Tree} {t : Token} {stack : List Binary32}
    (h : Reduces (trees.map Tree.value) t stack) :
    ∃ trees', stack = trees'.map Tree.value ∧
      Tree.listing trees' = Tree.listing trees ++ [t.unpriced] := by
  generalize hvalues : trees.map Tree.value = values at h
  cases h with
  | number v =>
      subst hvalues
      exact ⟨.number v :: trees, rfl, by simp [Tree.postOrder, Token.unpriced]⟩
  | binary op precedence left right rest =>
      obtain ⟨r, trees, rfl, rfl, hleft⟩ := List.map_eq_cons_iff.1 hvalues
      obtain ⟨l, trees, rfl, rfl, rfl⟩ := List.map_eq_cons_iff.1 hleft
      exact ⟨.binary op l r :: trees, rfl, by simp [Tree.postOrder, Token.unpriced]⟩
  | call f precedence operand rest =>
      obtain ⟨t, trees, rfl, rfl, rfl⟩ := List.map_eq_cons_iff.1 hvalues
      exact ⟨.call f t :: trees, rfl, by simp [Tree.postOrder, Token.unpriced]⟩

/-- Tokens that are reduced on the values of trees leave the values of trees, and their operations
come behind those of the trees before. -/
theorem exists_trees_of_reduceAll {trees : List Tree} {tokens : List Token}
    {stack : List Binary32} (h : reduceAll (trees.map Tree.value) tokens = .ok stack) :
    ∃ trees', stack = trees'.map Tree.value ∧
      Tree.listing trees' = Tree.listing trees ++ tokens.map Token.unpriced := by
  induction tokens generalizing trees with
  | nil =>
      obtain rfl := Except.ok.inj h
      exact ⟨trees, rfl, by simp⟩
  | cons t tokens ih =>
      obtain ⟨stack₁, ht, htokens⟩ := reduceAll_cons_eq_ok_iff.1 h
      obtain ⟨trees₁, rfl, hfirst⟩ := ht.exists_trees
      obtain ⟨trees', hstack, hlisting⟩ := ih htokens
      refine ⟨trees', hstack, ?_⟩
      rw [hlisting, hfirst, List.append_assoc, List.map_cons, List.singleton_append]

/-- A sequence with a value lists a tree of that value. -/
theorem exists_postOrder_of_eval_eq_ok {p : Postfix} {v : Binary32} (h : p.eval = .ok v) :
    ∃ t : Tree, p.tokens.map Token.unpriced = t.postOrder ∧ t.value = v := by
  have hreduce : reduceAll (([] : List Tree).map Tree.value) p.tokens = .ok [v] :=
    eval_eq_ok_iff.1 h
  obtain ⟨trees, hvalues, hlisting⟩ := exists_trees_of_reduceAll hreduce
  obtain ⟨t, rest, rfl, ht, hrest⟩ := List.map_eq_cons_iff.1 hvalues.symm
  obtain rfl := List.map_eq_nil_iff.1 hrest
  exact ⟨t, by simpa using hlisting.symm, ht⟩

/-- A sequence of any tokens has a value exactly if it lists a tree, whatever its precedences are.
It lists no other tree then, and the value is that of the tree. -/
theorem eval_eq_ok_iff_exists_postOrder (p : Postfix) :
    (∀ v, p.eval = .ok v ↔ ∃ t : Tree, p.tokens.map Token.unpriced = t.postOrder ∧ t.value = v) ∧
      ∀ t u : Tree, p.tokens.map Token.unpriced = t.postOrder →
        p.tokens.map Token.unpriced = u.postOrder → t = u := by
  constructor
  · refine fun v => ⟨exists_postOrder_of_eval_eq_ok, ?_⟩
    rintro ⟨t, hlisting, rfl⟩
    exact eval_eq_ok_iff.2 (Tree.reduceAll_of_unpriced_eq_postOrder hlisting [])
  · intro t u ht hu
    exact Tree.postOrder_injective (ht.symm.trans hu)

/-- A difference in reverse Polish notation, with prices that no reading gives. -/
example : (⟨[.number 7, .number 2, .operator ⟨.binary '-', 90⟩]⟩ : Postfix).eval = .ok 5 := by
  decide +kernel

end Postfix

end Formula
