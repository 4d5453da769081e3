import Formula.Proofs.Acceptance

/-!
# Formula.Proofs.Placement

Where each token of a formula ends up in postfix order.

A lexeme contributes tokens by itself and by what stands before it: by whether the last lexeme there
completes a value, and by the number of brackets that are open.  Numbers keep their order, and every
operator goes behind all tokens up to the first operator behind it that does not outrank it, and
before all from there on.  This fixes every place, whether the text is a formula or not:

* `Placed.push_number`, `Placed.push_operator` — where one more token is placed among others;
* `exists_isPlacement_order` — the places of tokens in postfix order;
* `contributions_eq_of_emitAll` — what is read are the contributions of the lexemes;
* `exists_isPlacement_of_toPostfix_eq_ok` — the places of all that a text contributes.
-/

namespace Formula

open Infix Postfix

/-! ## Tokens that are settled -/

/-- The token at position `i` is settled by the time all up to position `j` have been read: numbers
are at once, and an operator is by the first one behind it that does not outrank it. -/
def SettledBy (tokens : List Token) (i j : Nat) : Prop :=
  ∀ o, tokens[i]? = some (.operator o) →
    ∃ k p, i < k ∧ k ≤ j ∧ tokens[k]? = some (.operator p) ∧ p.precedence ≤ o.precedence

/-- The token at position `i` goes before the one at position `j`. -/
def Precedes (tokens : List Token) (i j : Nat) : Prop :=
  i < j ∧ SettledBy tokens i j ∨ j < i ∧ ¬SettledBy tokens j i

section SettledBy

variable {tokens : List Token} {i j : Nat}

/-- Behind the last token, nothing settles more. -/
theorem SettledBy.of_length_le (h : SettledBy tokens i j) {j' : Nat} (hj : tokens.length ≤ j' + 1) :
    SettledBy tokens i j' := by
  intro o ho
  obtain ⟨k, p, hik, -, hp, hle⟩ := h o ho
  have hk : k < tokens.length := (List.getElem?_eq_some_iff.1 hp).1
  exact ⟨k, p, hik, by omega, hp, hle⟩

/-- Whether a token is settled by another one does not depend on what comes behind both. -/
theorem settledBy_append_iff (hi : i < tokens.length) (hj : j < tokens.length)
    (more : List Token) : SettledBy (tokens ++ more) i j ↔ SettledBy tokens i j := by
  have hget (k : Nat) (hk : k ≤ j) : (tokens ++ more)[k]? = tokens[k]? :=
    List.getElem?_append_left (hk.trans_lt hj)
  simp only [SettledBy, List.getElem?_append_left hi]
  refine forall₂_congr fun o _ => exists₂_congr fun k p => ?_
  constructor
  · rintro ⟨hik, hkj, hp, hle⟩
    exact ⟨hik, hkj, hget k hkj ▸ hp, hle⟩
  · rintro ⟨hik, hkj, hp, hle⟩
    exact ⟨hik, hkj, (hget k hkj).symm ▸ hp, hle⟩

/-- An operator is settled by one behind it that does not outrank it. -/
theorem settledBy_iff {o : Operator} (ho : tokens[i]? = some (.operator o)) :
    SettledBy tokens i j ↔
      ∃ k p, i < k ∧ k ≤ j ∧ tokens[k]? = some (.operator p) ∧ p.precedence ≤ o.precedence := by
  refine ⟨fun h => h o ho, fun h o' ho' => ?_⟩
  obtain rfl : o = o' := by simpa [ho] using ho'
  exact h

/-- One more token settles an operator exactly if it is an operator that does not outrank it. -/
theorem settledBy_append_singleton_iff {o : Operator} (ho : tokens[i]? = some (.operator o))
    (t : Token) :
    SettledBy (tokens ++ [t]) i tokens.length ↔
      SettledBy tokens i tokens.length ∨ ∃ p, t = .operator p ∧ p.precedence ≤ o.precedence := by
  have hi : i < tokens.length := (List.getElem?_eq_some_iff.1 ho).1
  have hlast : (tokens ++ [t])[tokens.length]? = some t := by simp
  have ho' : (tokens ++ [t])[i]? = some (.operator o) := by rwa [List.getElem?_append_left hi]
  rw [settledBy_iff ho, settledBy_iff ho']
  constructor
  · rintro ⟨k, p, hik, hk, hp, hle⟩
    rcases Nat.lt_or_eq_of_le hk with hlt | rfl
    · rw [List.getElem?_append_left hlt] at hp
      exact .inl ⟨k, p, hik, hk, hp, hle⟩
    · exact .inr ⟨p, Option.some.inj (hlast.symm.trans hp), hle⟩
  · rintro (⟨k, p, hik, hk, hp, hle⟩ | ⟨p, rfl, hle⟩)
    · have hlt : k < tokens.length := (List.getElem?_eq_some_iff.1 hp).1
      exact ⟨k, p, hik, hk, by rwa [List.getElem?_append_left hlt], hle⟩
    · exact ⟨tokens.length, p, hi, Nat.le_refl _, hlast, hle⟩

end SettledBy

/-- Which of two tokens goes first does not depend on what comes behind both. -/
theorem Precedes.append {tokens : List Token} {i j : Nat} (h : Precedes tokens i j)
    (hi : i < tokens.length) (hj : j < tokens.length) (more : List Token) :
    Precedes (tokens ++ more) i j := by
  rcases h with ⟨hij, h⟩ | ⟨hji, h⟩
  · exact .inl ⟨hij, (settledBy_append_iff hi hj more).2 h⟩
  · exact .inr ⟨hji, fun h' => h ((settledBy_append_iff hj hi more).1 h')⟩

/-! ## Places -/

namespace Postfix.Arrangement

/-- The positions of the tokens that have been settled, in the order they are in, and of the
operators that wait, the latest first. -/
structure Placed (tokens : List Token) (a : Arrangement) (settled pending : List Nat) : Prop where
  perm : (settled ++ pending).Perm (List.range tokens.length)
  settled_eq : settled.map (tokens[·]?) = a.settled.toList.map some
  pending_eq : pending.map (tokens[·]?) = (a.pending.map Token.operator).map some
  settledBy : ∀ i ∈ settled, SettledBy tokens i tokens.length
  not_settledBy : ∀ i ∈ pending, ¬SettledBy tokens i tokens.length
  ordered : (settled ++ pending).Pairwise (Precedes tokens)

namespace Placed

variable {tokens : List Token} {a : Arrangement} {settled pending : List Nat}

theorem lt_length (h : Placed tokens a settled pending) {i : Nat}
    (hi : i ∈ settled ++ pending) : i < tokens.length :=
  List.mem_range.1 (h.perm.mem_iff.1 hi)

/-- The tokens at the positions stay the same when there is one more. -/
theorem map_append (h : Placed tokens a settled pending) {places : List Nat}
    (hplaces : places ⊆ settled ++ pending) (more : List Token) :
    places.map ((tokens ++ more)[·]?) = places.map (tokens[·]?) :=
  List.map_congr_left fun _ hi => List.getElem?_append_left (h.lt_length (hplaces hi))

/-- One more token goes behind those that it finds settled, or settles, and before all others. -/
theorem insert (h : Placed tokens a settled pending) {first second : List Nat}
    (hsplit : settled ++ pending = first ++ second) {t : Token}
    (hfirst : ∀ i ∈ first, SettledBy (tokens ++ [t]) i tokens.length)
    (hsecond : ∀ i ∈ second, ¬SettledBy (tokens ++ [t]) i tokens.length) :
    (first ++ tokens.length :: second).Perm (List.range (tokens ++ [t]).length) ∧
      (first ++ tokens.length :: second).Pairwise (Precedes (tokens ++ [t])) := by
  have hperm := h.perm
  have hordered : (settled ++ pending).Pairwise (Precedes (tokens ++ [t])) :=
    h.ordered.imp_of_mem fun hi hj hij => hij.append (h.lt_length hi) (h.lt_length hj) [t]
  have hlt : ∀ i ∈ first ++ second, i < tokens.length := fun i hi => h.lt_length (hsplit ▸ hi)
  rw [hsplit] at hperm hordered
  constructor
  · rw [List.length_append, List.length_singleton, List.range_succ]
    exact List.perm_middle.trans ((hperm.cons _).trans (List.perm_append_singleton _ _).symm)
  · rw [List.pairwise_append] at hordered ⊢
    obtain ⟨hpairs₁, hpairs₂, hcross⟩ := hordered
    refine ⟨hpairs₁, List.pairwise_cons.2 ⟨fun j hj => ?_, hpairs₂⟩, fun i hi j hj => ?_⟩
    · exact .inr ⟨hlt j (List.mem_append_right _ hj), hsecond j hj⟩
    · rcases List.mem_cons.1 hj with rfl | hj
      · exact .inl ⟨hlt i (List.mem_append_left _ hi), hfirst i hi⟩
      · exact hcross i hi j hj

/-- What is settled stays so when there is one more token. -/
theorem settledBy_append (h : Placed tokens a settled pending) (t : Token) :
    ∀ i ∈ settled, SettledBy (tokens ++ [t]) i tokens.length := by
  intro i hi o ho
  have hlt : i < tokens.length := h.lt_length (List.mem_append_left _ hi)
  rw [List.getElem?_append_left hlt] at ho
  exact (settledBy_append_singleton_iff ho t).2 (.inl (h.settledBy i hi)) o
    (by rwa [List.getElem?_append_left hlt])

/-- A position among others holds one of the operators there. -/
theorem exists_operator_of_mem {places : List Nat} {ops : List Operator}
    (h : places.map (tokens[·]?) = (ops.map Token.operator).map some) {i : Nat} (hi : i ∈ places) :
    ∃ o ∈ ops, tokens[i]? = some (.operator o) := by
  have hmem : tokens[i]? ∈ (ops.map Token.operator).map some := h ▸ List.mem_map_of_mem hi
  simpa [eq_comm] using hmem

/-- A number is placed behind all that has been settled. -/
theorem push_number (h : Placed tokens a settled pending) (value : Binary32) :
    Placed (tokens ++ [.number value]) (a.push (.number value))
      (settled ++ [tokens.length]) pending := by
  have hlength : (tokens ++ [Token.number value]).length = tokens.length + 1 := by simp
  have hsettled := h.settledBy_append (.number value)
  have hpending : ∀ i ∈ pending, ¬SettledBy (tokens ++ [.number value]) i tokens.length := by
    intro i hi
    obtain ⟨o, -, ho⟩ := exists_operator_of_mem h.pending_eq hi
    simpa [settledBy_append_singleton_iff ho] using h.not_settledBy i hi
  obtain ⟨hperm, hordered⟩ := h.insert rfl hsettled hpending
  refine ⟨?_, ?_, ?_, fun i hi => ?_, fun i hi hsettledBy => ?_, ?_⟩
  · rwa [List.append_assoc]
  · rw [List.map_append, h.map_append (List.subset_append_left _ _), h.settled_eq]
    simp [push]
  · rw [h.map_append (List.subset_append_right _ _), h.pending_eq]
    rfl
  · rcases List.mem_append.1 hi with hi | hi
    · exact (hsettled i hi).of_length_le (Nat.le_succ _)
    · obtain rfl := List.mem_singleton.1 hi
      intro o ho
      simp at ho
  · exact hpending i hi (hsettledBy.of_length_le hlength.le)
  · rwa [List.append_assoc]

/-- An operator is placed behind those that it does not outrank, and all that has been settled. -/
theorem push_operator (h : Placed tokens a settled pending) (ha : a.Descending) (p : Operator) :
    ∃ settled' pending',
      Placed (tokens ++ [.operator p]) (a.push (.operator p)) settled' pending' := by
  have hlength : (tokens ++ [Token.operator p]).length = tokens.length + 1 := by simp
  have hpending := h.pending_eq
  rw [← List.takeWhile_append_dropWhile (p := fun o : Operator => p.precedence ≤ o.precedence)
    (l := a.pending), List.map_append, List.map_append, List.map_eq_append_iff] at hpending
  obtain ⟨popped, rest, rfl, hpopped, hrest⟩ := hpending
  have hfirst : ∀ i ∈ settled ++ popped, SettledBy (tokens ++ [.operator p]) i tokens.length := by
    intro i hi
    rcases List.mem_append.1 hi with hi | hi
    · exact h.settledBy_append (.operator p) i hi
    · obtain ⟨o, hmem, ho⟩ := exists_operator_of_mem hpopped hi
      have hle : p.precedence ≤ o.precedence := by simpa using List.mem_takeWhile_imp hmem
      exact (settledBy_append_singleton_iff ho _).2 (.inr ⟨p, rfl, hle⟩)
  have hsecond : ∀ i ∈ rest, ¬SettledBy (tokens ++ [.operator p]) i tokens.length := by
    intro i hi
    obtain ⟨o, hmem, ho⟩ := exists_operator_of_mem hrest hi
    have hlt : o.precedence < p.precedence := precedence_lt_of_mem_dropWhile ha hmem
    rw [settledBy_append_singleton_iff ho]
    rintro (hsettledBy | ⟨p', hp', hle⟩)
    · exact h.not_settledBy i (List.mem_append_right _ hi) hsettledBy
    · cases hp'
      omega
  obtain ⟨hperm, hordered⟩ := h.insert (List.append_assoc _ _ _).symm hfirst hsecond
  refine ⟨settled ++ popped, tokens.length :: rest, hperm, ?_, ?_, fun i hi => ?_,
    fun i hi hsettledBy => ?_, hordered⟩
  · rw [h.map_append (by simp), List.map_append, h.settled_eq, hpopped]
    simp [push]
  · rw [List.map_cons, h.map_append (by simp), hrest]
    simp [push]
  · exact (hfirst i hi).of_length_le (Nat.le_succ _)
  · rcases List.mem_cons.1 hi with rfl | hi
    · obtain ⟨k, q, hlt, -, hq, -⟩ := hsettledBy p (by simp)
      have hk : k < tokens.length + 1 := hlength ▸ (List.getElem?_eq_some_iff.1 hq).1
      omega
    · exact hsecond i hi (hsettledBy.of_length_le hlength.le)

/-- Whatever is read, it can be told where its tokens are. -/
theorem exists_placed_arrange (tokens : List Token) :
    ∃ settled pending, Placed tokens (({} : Arrangement).arrange tokens) settled pending := by
  induction tokens using List.reverseRecOn with
  | nil => exact ⟨[], [], by simp, rfl, rfl, by simp, by simp, by simp⟩
  | append_singleton tokens t ih =>
      obtain ⟨settled, pending, h⟩ := ih
      rw [arrange_append]
      cases t with
      | number value => exact ⟨_, _, h.push_number value⟩
      | operator p => exact h.push_operator (descending_arrange (fits_empty {}).descending tokens) p

end Placed

end Postfix.Arrangement

/-- The positions `places` that the tokens of `out` come from.  All tokens are there, and once.
Numbers keep their order and go before the operators behind them.  An operator goes before a number
behind it exactly if an operator between them does not outrank it, and before an operator behind it
exactly if one of the operators behind it up to that one does not. -/
structure IsPlacement (tokens out : List Token) (places : List Nat) : Prop where
  perm : places.Perm (List.range tokens.length)
  out_eq : out.map some = places.map (tokens[·]?)
  number_number : ∀ i j x y, i < j → tokens[i]? = some (.number x) →
    tokens[j]? = some (.number y) → places.idxOf i < places.idxOf j
  number_operator : ∀ i j x p, i < j → tokens[i]? = some (.number x) →
    tokens[j]? = some (.operator p) → places.idxOf i < places.idxOf j
  operator_number_iff : ∀ i j o y, i < j → tokens[i]? = some (.operator o) →
    tokens[j]? = some (.number y) → (places.idxOf i < places.idxOf j ↔
      ∃ k q, i < k ∧ k < j ∧ tokens[k]? = some (.operator q) ∧ q.precedence ≤ o.precedence)
  operator_operator_iff : ∀ i j o p, i < j → tokens[i]? = some (.operator o) →
    tokens[j]? = some (.operator p) → (places.idxOf i < places.idxOf j ↔
      ∃ k q, i < k ∧ k ≤ j ∧ tokens[k]? = some (.operator q) ∧ q.precedence ≤ o.precedence)

/-- Where tokens are placed as they precede each other, an earlier one goes before a later one
exactly if it is settled by then. -/
theorem idxOf_lt_idxOf_iff {tokens : List Token} {places : List Nat}
    (hperm : places.Perm (List.range tokens.length)) (h : places.Pairwise (Precedes tokens))
    {i j : Nat} (hij : i < j) (hj : j < tokens.length) :
    places.idxOf i < places.idxOf j ↔ SettledBy tokens i j := by
  have hmem (k : Nat) (hk : k < tokens.length) : k ∈ places :=
    hperm.mem_iff.2 (List.mem_range.2 hk)
  have hprecedes {k l : Nat} (hk : k < tokens.length) (hl : l < tokens.length)
      (hlt : places.idxOf k < places.idxOf l) : Precedes tokens k l := by
    have hrel := List.pairwise_iff_getElem.1 h _ _ (List.idxOf_lt_length_of_mem (hmem k hk))
      (List.idxOf_lt_length_of_mem (hmem l hl)) hlt
    rwa [List.getElem_idxOf, List.getElem_idxOf] at hrel
  constructor
  · intro hlt
    rcases hprecedes (hij.trans hj) hj hlt with ⟨-, hsettledBy⟩ | ⟨hji, -⟩
    · exact hsettledBy
    · omega
  · intro hsettledBy
    by_contra hle
    have hne : places.idxOf i ≠ places.idxOf j := by
      rw [Ne, List.idxOf_inj (hmem i (hij.trans hj))]
      exact Nat.ne_of_lt hij
    rcases hprecedes hj (hij.trans hj) (by omega) with ⟨hji, -⟩ | ⟨-, hnot⟩
    · omega
    · exact hnot hsettledBy

/-- Tokens in postfix order are placed like this. -/
theorem exists_isPlacement_order (tokens : List Token) :
    ∃ places, IsPlacement tokens (order tokens) places := by
  obtain ⟨settled, pending, h⟩ := Postfix.Arrangement.Placed.exists_placed_arrange tokens
  have hiff {i j : Nat} {t : Token} (hij : i < j) (hj : tokens[j]? = some t) :=
    idxOf_lt_idxOf_iff h.perm h.ordered hij (List.getElem?_eq_some_iff.1 hj).1
  have hnumber {i j : Nat} {x : Binary32} (hi : tokens[i]? = some (.number x)) :
      SettledBy tokens i j := by
    intro o ho
    simp [hi] at ho
  refine ⟨settled ++ pending, h.perm, ?_, ?_, ?_, ?_, ?_⟩
  · rw [← toList_arrange_empty, Postfix.Arrangement.toList, List.map_append, List.map_append,
      h.settled_eq, h.pending_eq]
  · exact fun i j x y hij hi hj => (hiff hij hj).2 (hnumber hi)
  · exact fun i j x p hij hi hj => (hiff hij hj).2 (hnumber hi)
  · intro i j o y hij hi hj
    rw [hiff hij hj, settledBy_iff hi]
    -- No operator is at `j` itself.
    have hlt {k : Nat} {q : Operator} (hq : tokens[k]? = some (.operator q)) : k ≠ j := by
      rintro rfl
      simp [hj] at hq
    refine exists₂_congr fun k q => ⟨?_, ?_⟩
    · rintro ⟨hik, hkj, hq, hle⟩
      exact ⟨hik, Nat.lt_of_le_of_ne hkj (hlt hq), hq, hle⟩
    · rintro ⟨hik, hkj, hq, hle⟩
      exact ⟨hik, hkj.le, hq, hle⟩
  · intro i j o p hij hi hj
    rw [hiff hij hj, settledBy_iff hi]

/-! ## What a text contributes -/

/-- The token for an operation behind lexemes, with its price inside the brackets open there. -/
def operatorBehind (before : List Lexeme) (op : Operation) : Token :=
  .operator ⟨op, 5 * (before.count .opening - before.count .closing) + op.tier⟩

/-- The product that is left out behind a completed value. -/
def productBehind (m : Bindings) (before : List Lexeme) : List Token :=
  if completeBehind m before then [operatorBehind before (.binary '*')] else []

/-- The tokens that a lexeme contributes behind others: numbers for literals and bound names, zero
for the missing left operand of a sign, and operators. -/
def Lexeme.contribution (m : Bindings) (before : List Lexeme) : Lexeme → List Token
  | literal run =>
    [.number (Literal.value (run.takeWhile Char.isDigit) (run.dropWhile Char.isDigit).tail)]
  | name letters =>
    productBehind m before ++
      match m[letters]? with
      | some value => [.number value]
      | none => [operatorBehind before (.function letters)]
  | operator op =>
    (if completeBehind m before then [] else [.number 0]) ++
      [operatorBehind before (.binary op.symbol)]
  | opening => productBehind m before
  | closing | stray _ => []

/-- The tokens that lexemes contribute behind others, one after the other. -/
def contributions (m : Bindings) (before : List Lexeme) : List Lexeme → List Token
  | [] => []
  | u :: units => u.contribution m before ++ contributions m (before ++ [u]) units

/-- A literal has the value of the digits before and behind its dot. -/
theorem Literal.Denotes.eq_value {run : List Char} {v : Binary32} (h : Denotes run v) :
    v = value (run.takeWhile Char.isDigit) (run.dropWhile Char.isDigit).tail := by
  cases h with
  | whole _ hdigits =>
      rw [List.takeWhile_eq_self_iff.2 hdigits, List.dropWhile_eq_nil_iff.2 hdigits]
      rfl
  | @decimal digits places _ hdigits _ hplaces =>
      rw [List.takeWhile_append_of_pos hdigits, List.dropWhile_append_of_pos hdigits,
        List.takeWhile_cons_of_neg (by decide), List.append_nil,
        List.dropWhile_cons_of_neg (by decide), List.tail_cons]

/-- The state that lexemes leave a reading in. -/
structure LeftBehind (m : Bindings) (before : List Lexeme) (s : State) : Prop where
  level : s.level + before.count .closing = before.count .opening
  complete : s.complete = completeBehind m before

namespace LeftBehind

variable {m : Bindings} {before units : List Lexeme} {s : State} {u : Lexeme} {e : Emission}

theorem operator_priced (h : LeftBehind m before s) (op : Operation) :
    Token.operator (op.priced s.level) = operatorBehind before op := by
  have hlevel : before.count .opening - before.count .closing = s.level := by
    have := h.level
    omega
  rw [operatorBehind, hlevel, Operation.priced, Operation.precedenceAt, Operation.nestingStep,
    Nat.mul_comm]

theorem product (h : LeftBehind m before s) : s.product = productBehind m before := by
  rw [productBehind, State.product, h.complete, h.operator_priced]
  rfl

/-- A lexeme that is read leaves the state that it contributes to. -/
theorem of_emits (h : LeftBehind m before s) (hread : Emits m s u e) :
    LeftBehind m (before ++ [u]) e.state := by
  have hlevel := hread.level_eq
  have := h.level
  refine ⟨?_, ?_⟩
  · rw [List.count_append, List.count_append]
    omega
  · rw [hread.complete_eq, completeBehind, List.getLast?_append]
    rfl

/-- A lexeme that is read adds the tokens it contributes. -/
theorem tokens_eq (h : LeftBehind m before s) (hread : Emits m s u e) (hunit : u.IsUnit) :
    e.tokens = u.contribution m before := by
  have hproduct := h.product
  have hoperator := h.operator_priced
  have hcomplete := h.complete
  cases hread with
  | literal hvalue =>
      rw [Lexeme.contribution, ← (Literal.denotes_of_read_eq_ok hunit hvalue).eq_value]
  | value hbound => simp [Lexeme.contribution, hproduct, hbound]
  | call hunbound hname => simp [Lexeme.contribution, hproduct, hunbound, hoperator]
  | operator op => simp [Lexeme.contribution, ← hcomplete, hoperator]
  | sign hsign => simp [Lexeme.contribution, ← hcomplete, hoperator]
  | opening => exact hproduct
  | closing => rfl

end LeftBehind

/-- Lexemes that are read add the tokens they contribute. -/
theorem contributions_eq_of_emitAll {m : Bindings} {before units : List Lexeme} {s : State}
    {e : Emission} (h : LeftBehind m before s) (hread : emitAll m s units = .ok e)
    (hunits : ∀ u ∈ units, u.IsUnit) : e.tokens = contributions m before units := by
  induction units generalizing before s e with
  | nil =>
      obtain rfl := Except.ok.inj hread
      rfl
  | cons u units ih =>
      obtain ⟨e₁, e₂, h₁, h₂, rfl⟩ := emitAll_cons_eq_ok_iff.1 hread
      rw [List.forall_mem_cons] at hunits
      rw [Emission.after, contributions, h.tokens_eq h₁ hunits.1, ih (h.of_emits h₁) h₂ hunits.2]

/-- The tokens of a text in postfix order are those that its lexemes contribute, each in its place:
no token is lost or added, whether the text is a formula or not. -/
theorem exists_isPlacement_of_toPostfix_eq_ok {text : String} {m : Bindings} {p : Postfix}
    (h : toPostfix text m = .ok p) :
    ∃ units, Spells units (trimmed text) ∧
      ∃ places, IsPlacement (contributions m [] units) p.tokens places := by
  obtain ⟨-, e, hread, -, rfl⟩ := convert_eq_ok_iff.1 (toPostfix_eq_ok_iff.1 h)
  have hspells := spells_trimmed_of_emitAll hread
  have htokens : e.tokens = contributions m [] _ :=
    contributions_eq_of_emitAll ⟨rfl, rfl⟩ hread (isUnit_of_spells hspells)
  exact ⟨_, hspells, htokens ▸ exists_isPlacement_order e.tokens⟩

/-- Tokens of a text that is no formula, with a bracket, a sign and two implicit products. -/
theorem exists_isPlacement_of_toPostfix_eq_ok_incomplete :
    let m : Bindings := Std.TreeMap.ofList [("x", (7 : Binary32))]
    let p : Postfix := ⟨[.number 2, .number 0, .number 7, .operator ⟨.binary '-', 6⟩,
      .operator ⟨.binary '*', 2⟩, .number 4, .operator ⟨.function "sqrt", 4⟩,
      .operator ⟨.binary '^', 3⟩, .operator ⟨.binary '*', 2⟩]⟩
    toPostfix "2(-x) sqrt 4 ^" m = .ok p ∧
      ∃ units, Spells units (trimmed "2(-x) sqrt 4 ^") ∧
        ∃ places, IsPlacement (contributions m [] units) p.tokens places := by
  intro m p
  have h : toPostfix "2(-x) sqrt 4 ^" m = .ok p := by decide +kernel
  exact ⟨h, exists_isPlacement_of_toPostfix_eq_ok h⟩

end Formula
