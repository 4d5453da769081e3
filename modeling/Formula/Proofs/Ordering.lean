import Formula.Proofs.Emission

/-!
# Formula.Proofs.Ordering

How tokens are put into postfix order, one part of a sequence apart from the others.

A part is put in order for itself when every operator in it outranks those that wait from before,
and all of it is settled as soon as an operator arrives that does not outrank it:

* `arrange_onto` — operators that are outranked by all that follows stay where they are;
* `toList_arrange_append` — a part between outranked operators and an operator that does not
  outrank it is put in order for itself;
* `order_operator_cons`, `order_append_operator_cons` — the order of a call and of an operation;
* `descending_arrange`, `Fits.of_emitAll` — waiting operators outrank each other from first to last,
  and none that waits for its operand outranks a bracket that is opened next.
-/

namespace Formula

open Infix Postfix

/-! ## Prices of a part -/

/-- No operator among the tokens is priced below `b`. -/
def PricedFrom (b : Nat) (tokens : List Token) : Prop :=
  ∀ o, Token.operator o ∈ tokens → b ≤ o.precedence

@[simp] theorem pricedFrom_nil (b : Nat) : PricedFrom b [] := by simp [PricedFrom]

@[simp] theorem pricedFrom_append {b : Nat} {first second : List Token} :
    PricedFrom b (first ++ second) ↔ PricedFrom b first ∧ PricedFrom b second := by
  simp only [PricedFrom, List.mem_append, or_imp, forall_and]

@[simp] theorem pricedFrom_number_cons {b : Nat} {value : Binary32} {tokens : List Token} :
    PricedFrom b (.number value :: tokens) ↔ PricedFrom b tokens := by
  simp [PricedFrom]

@[simp] theorem pricedFrom_operator_cons {b : Nat} {o : Operator} {tokens : List Token} :
    PricedFrom b (.operator o :: tokens) ↔ b ≤ o.precedence ∧ PricedFrom b tokens := by
  simp [PricedFrom]

theorem PricedFrom.mono {b c : Nat} {tokens : List Token} (h : PricedFrom c tokens) (hbc : b ≤ c) :
    PricedFrom b tokens :=
  fun o ho => Nat.le_trans hbc (h o ho)

namespace Postfix.Arrangement

/-! ## One arrangement on top of another -/

/-- Arrangements are the same if they list the same tokens. -/
theorem ext_toList {a b : Arrangement} (hsettled : a.settled.toList = b.settled.toList)
    (hpending : a.pending = b.pending) : a = b := by
  obtain ⟨settled, pending⟩ := a
  obtain ⟨settled', pending'⟩ := b
  obtain rfl := Array.toList_inj.1 hsettled
  obtain rfl : pending = pending' := hpending
  rfl

/-- The arrangement `a` of what follows `below`, whose operators wait on. -/
def onto (a below : Arrangement) : Arrangement :=
  { settled := below.settled ++ a.settled, pending := a.pending ++ below.pending }

/-- Tokens whose place is final. -/
def done (tokens : List Token) : Arrangement := { settled := tokens.toArray }

@[simp] theorem empty_onto (below : Arrangement) : ({} : Arrangement).onto below = below := by
  simp [onto]

@[simp] theorem toList_onto (a below : Arrangement) :
    (a.onto below).toList = below.settled.toList ++ a.toList ++ below.pending.map .operator := by
  simp [onto, toList]

@[simp] theorem toList_onto_done (a : Arrangement) (tokens : List Token) :
    (a.onto (done tokens)).toList = tokens ++ a.toList := by
  simp [done]

/-- What fails a test at the end of a list is not taken from it, nor does it stop the test. -/
theorem takeWhile_dropWhile_append_of_neg {p : α → Bool} {l l' : List α} (h : ∀ x ∈ l', ¬p x) :
    (l ++ l').takeWhile p = l.takeWhile p ∧ (l ++ l').dropWhile p = l.dropWhile p ++ l' := by
  induction l with
  | nil => cases l' <;> simp_all
  | cons x l ih =>
      by_cases hx : p x
      · simp [hx, ih]
      · simp [hx]

/-- A token that outranks all that waits below is placed above it. -/
theorem push_onto {a below : Arrangement} {t : Token}
    (h : ∀ o, t = .operator o → ∀ o' ∈ below.pending, o'.precedence < o.precedence) :
    (a.onto below).push t = (a.push t).onto below := by
  cases t with
  | number value => simp [push, onto]
  | operator o =>
      have hbelow : ∀ o' ∈ below.pending, ¬(decide (o.precedence ≤ o'.precedence)) := by
        intro o' ho'
        simpa using h o rfl o' ho'
      have hpending := takeWhile_dropWhile_append_of_neg (l := a.pending) hbelow
      refine ext_toList ?_ ?_
      · simp [push, onto, hpending.1]
      · simp [push, onto, hpending.2]

/-- Operators that are outranked by all that follows stay where they are. -/
theorem arrange_onto {b : Nat} {tokens : List Token} (htokens : PricedFrom b tokens)
    {a below : Arrangement} (hbelow : ∀ o ∈ below.pending, o.precedence < b) :
    (a.onto below).arrange tokens = (a.arrange tokens).onto below := by
  induction tokens generalizing a with
  | nil => rfl
  | cons t tokens ih =>
      have hpush : (a.onto below).push t = (a.push t).onto below := by
        refine push_onto fun o ho o' ho' => ?_
        exact Nat.lt_of_lt_of_le (hbelow o' ho') (htokens o (ho ▸ List.mem_cons_self))
      simp only [arrange, List.foldl_cons] at ih ⊢
      rw [hpush]
      exact ih fun o ho => htokens o (List.mem_cons_of_mem t ho)

/-- An operator that outranks none of those waiting on top settles all of them. -/
theorem push_onto_of_le {a below : Arrangement} {o : Operator}
    (h : ∀ o' ∈ a.pending, o.precedence ≤ o'.precedence) :
    (a.onto below).push (.operator o) =
      (({ pending := below.pending } : Arrangement).push (.operator o)).onto
        (done (below.settled.toList ++ a.toList)) := by
  have hall : ∀ o' ∈ a.pending, decide (o.precedence ≤ o'.precedence) := by simpa using h
  refine ext_toList ?_ ?_
  · simp [push, onto, done, toList, List.takeWhile_append_of_pos hall]
  · simp [push, onto, done, List.dropWhile_append_of_pos hall]

/-- Whatever waits was waiting before or has been read since. -/
theorem mem_pending_arrange {o : Operator} {a : Arrangement} {tokens : List Token}
    (h : o ∈ (a.arrange tokens).pending) : o ∈ a.pending ∨ .operator o ∈ tokens := by
  induction tokens generalizing a with
  | nil => exact .inl h
  | cons t tokens ih =>
      rcases ih h with hpush | htokens
      · cases t with
        | number value => exact .inl hpush
        | operator o' =>
            rcases List.mem_cons.1 hpush with rfl | hdrop
            · exact .inr List.mem_cons_self
            · exact .inl ((List.dropWhile_suffix _).subset hdrop)
      · exact .inr (List.mem_cons_of_mem t htokens)

/-- Putting tokens in order keeps them all, and adds none. -/
theorem perm_arrange (a : Arrangement) (tokens : List Token) :
    (a.arrange tokens).toList.Perm (a.toList ++ tokens) := by
  induction tokens generalizing a with
  | nil => simp [arrange]
  | cons t tokens ih =>
      have hpush : (a.push t).toList.Perm (a.toList ++ [t]) := by
        cases t with
        | number value =>
            simp only [push, toList, Array.toList_push, List.append_assoc]
            exact (List.perm_append_comm).append_left _
        | operator o =>
            have hsplit : a.pending.map Token.operator =
                (a.pending.takeWhile fun o' => o.precedence ≤ o'.precedence).map Token.operator ++
                  (a.pending.dropWhile fun o' => o.precedence ≤ o'.precedence).map .operator := by
              rw [← List.map_append, List.takeWhile_append_dropWhile]
            simp only [push, toList, hsplit, Array.toList_appendList, List.map_cons,
              List.append_assoc]
            exact (List.perm_append_singleton _ _).symm.append_left _ |>.append_left _
      refine (ih (a.push t)).trans ?_
      simpa using hpush.append_right tokens

end Postfix.Arrangement

open Postfix.Arrangement

/-! ## Postfix order part by part -/

/-- Tokens in postfix order. -/
def order (tokens : List Token) : List Token := (Postfix.ofInfix ⟨tokens⟩).tokens

theorem toList_arrange_empty (tokens : List Token) :
    (({} : Postfix.Arrangement).arrange tokens).toList = order tokens := rfl

/-- Postfix order holds the same tokens. -/
theorem perm_order (tokens : List Token) : (order tokens).Perm tokens :=
  perm_arrange {} tokens

/-- A part above outranked operators is put in order for itself, if nothing follows it or an
operator that does not outrank it. -/
theorem toList_arrange_append {a : Postfix.Arrangement} {b : Nat} {part next : List Token}
    (hpart : PricedFrom b part) (ha : ∀ o ∈ a.pending, o.precedence < b)
    (hnext : ∀ t ∈ next.head?, ∃ o, t = .operator o ∧ o.precedence ≤ b) :
    (a.arrange (part ++ next)).toList =
      a.settled.toList ++
        (order part ++ (({ pending := a.pending } : Postfix.Arrangement).arrange next).toList) := by
  have hsplit : a.arrange part = (({} : Postfix.Arrangement).arrange part).onto a := by
    rw [← arrange_onto hpart ha, empty_onto]
  rw [Postfix.Arrangement.arrange_append, hsplit]
  cases next with
  | nil =>
      have hempty : ({ pending := a.pending } : Postfix.Arrangement).arrange [] =
          { pending := a.pending } := rfl
      have hnil (b : Postfix.Arrangement) : b.arrange [] = b := rfl
      rw [hempty, hnil, toList_onto, toList_arrange_empty, List.append_assoc]
      simp [toList]
  | cons t next =>
      obtain ⟨o, rfl, ho⟩ := hnext t rfl
      have hpush : ((({} : Postfix.Arrangement).arrange part).onto a).push (.operator o) =
          (({ pending := a.pending } : Postfix.Arrangement).push (.operator o)).onto
            (done (a.settled.toList ++ order part)) := by
        refine push_onto_of_le fun o' ho' => ?_
        rcases mem_pending_arrange ho' with hempty | hmem
        · cases hempty
        · exact Nat.le_trans ho (hpart o' hmem)
      have hcons (b : Postfix.Arrangement) :
          b.arrange (.operator o :: next) = (b.push (.operator o)).arrange next := rfl
      rw [hcons, hpush, arrange_onto (b := 0), ← hcons, toList_onto_done, List.append_assoc]
      · exact fun o _ => Nat.zero_le _
      · simp [done]

/-- A part that the next operator does not outrank comes first, in its own order. -/
theorem order_append {b : Nat} {part next : List Token} (hpart : PricedFrom b part)
    (hnext : ∀ t ∈ next.head?, ∃ o, t = .operator o ∧ o.precedence ≤ b) :
    order (part ++ next) = order part ++ order next := by
  have h := toList_arrange_append (a := {}) hpart (by simp) hnext
  simpa [toList_arrange_empty] using h

/-- An operator comes last of all that follows it and outranks it. -/
theorem order_operator_cons {o : Operator} {tokens : List Token}
    (h : PricedFrom (o.precedence + 1) tokens) :
    order (.operator o :: tokens) = order tokens ++ [.operator o] := by
  have hpush : ({} : Postfix.Arrangement).push (.operator o) =
      ({} : Postfix.Arrangement).onto { pending := [o] } := by
    rfl
  have horder : order (.operator o :: tokens) =
      ((({} : Postfix.Arrangement).push (.operator o)).arrange tokens).toList := rfl
  rw [horder, hpush, arrange_onto h (by simp), toList_onto, toList_arrange_empty]
  rfl

/-- An operator between a part that it does not outrank and a part that outranks it comes behind
both. -/
theorem order_append_operator_cons {o : Operator} {first second : List Token}
    (hfirst : PricedFrom o.precedence first) (hsecond : PricedFrom (o.precedence + 1) second) :
    order (first ++ .operator o :: second) = order first ++ (order second ++ [.operator o]) := by
  have hnext : ∀ t ∈ (Token.operator o :: second).head?,
      ∃ o', t = .operator o' ∧ o'.precedence ≤ o.precedence := by
    intro t ht
    obtain rfl := Option.some.inj ht
    exact ⟨o, rfl, Nat.le_refl _⟩
  rw [order_append hfirst hnext, order_operator_cons hsecond]

/-! ## Further brackets around -/

/-- The operator as it is read inside `k` further brackets. -/
def Operator.raise (k : Nat) (o : Operator) : Operator :=
  { o with precedence := o.precedence + k * Operation.nestingStep }

theorem Token.raise_operator (k : Nat) (o : Operator) :
    Token.raise k (.operator o) = .operator (o.raise k) := rfl

theorem Operator.raise_le_raise_iff (k : Nat) (o o' : Operator) :
    (o.raise k).precedence ≤ (o'.raise k).precedence ↔ o.precedence ≤ o'.precedence := by
  simp [raise]

namespace Postfix.Arrangement

/-- The arrangement of the same tokens inside `k` further brackets. -/
def raise (k : Nat) (a : Arrangement) : Arrangement :=
  { settled := a.settled.map (Token.raise k), pending := a.pending.map (Operator.raise k) }

@[simp] theorem toList_raise (k : Nat) (a : Arrangement) :
    (a.raise k).toList = a.toList.map (Token.raise k) := by
  simp [raise, toList, Token.raise_operator, Function.comp_def]

theorem push_raise (k : Nat) (a : Arrangement) (t : Token) :
    (a.raise k).push (t.raise k) = (a.push t).raise k := by
  cases t with
  | number value => simp [push, raise]
  | operator o =>
      refine ext_toList ?_ ?_ <;>
        simp [Token.raise_operator, push, raise, List.takeWhile_map, List.dropWhile_map,
          Function.comp_def, Operator.raise_le_raise_iff]

theorem arrange_raise (k : Nat) (a : Arrangement) (tokens : List Token) :
    (a.raise k).arrange (tokens.map (Token.raise k)) = (a.arrange tokens).raise k := by
  induction tokens generalizing a with
  | nil => rfl
  | cons t tokens ih =>
      simp only [arrange, List.map_cons, List.foldl_cons] at ih ⊢
      rw [push_raise, ih]

end Postfix.Arrangement

/-- Further brackets around tokens do not change the order they are put in. -/
theorem order_map_raise (k : Nat) (tokens : List Token) :
    order (tokens.map (Token.raise k)) = (order tokens).map (Token.raise k) := by
  have hempty : ({} : Postfix.Arrangement).raise k = {} := by simp [Postfix.Arrangement.raise]
  rw [← toList_arrange_empty, ← toList_arrange_empty, ← toList_raise, ← arrange_raise, hempty]

/-- Inside further brackets, no operator is priced below them. -/
theorem pricedFrom_map_raise (k : Nat) (tokens : List Token) :
    PricedFrom (k * Operation.nestingStep) (tokens.map (Token.raise k)) := by
  intro o ho
  obtain ⟨t, -, ht⟩ := List.mem_map.1 ho
  cases t with
  | number value => cases ht
  | operator o' =>
      cases ht
      exact Nat.le_add_left _ _

/-! ## Operators that wait -/

namespace Postfix.Arrangement

/-- Every waiting operator outranks those that came before it. -/
def Descending (a : Arrangement) : Prop :=
  a.pending.Pairwise fun o o' => o'.precedence < o.precedence

/-- The operators that an arriving one lets wait are those it outranks. -/
theorem precedence_lt_of_mem_dropWhile {pending : List Operator} {o o' : Operator}
    (h : pending.Pairwise fun o o' => o'.precedence < o.precedence)
    (ho' : o' ∈ pending.dropWhile fun p => o.precedence ≤ p.precedence) :
    o'.precedence < o.precedence := by
  induction pending with
  | nil => cases ho'
  | cons p pending ih =>
      rw [List.pairwise_cons] at h
      by_cases hp : o.precedence ≤ p.precedence
      · rw [List.dropWhile_cons_of_pos (by simpa using hp)] at ho'
        exact ih h.2 ho'
      · rw [List.dropWhile_cons_of_neg (by simpa using hp)] at ho'
        rcases List.mem_cons.1 ho' with rfl | htail
        · exact Nat.not_le.1 hp
        · exact Nat.lt_trans (h.1 o' htail) (Nat.not_le.1 hp)

theorem descending_push {a : Arrangement} (h : a.Descending) (t : Token) :
    (a.push t).Descending := by
  cases t with
  | number value => exact h
  | operator o =>
      refine List.pairwise_cons.2 ⟨fun o' ho' => precedence_lt_of_mem_dropWhile h ho', ?_⟩
      exact h.sublist (List.dropWhile_suffix _).sublist

/-- Waiting operators outrank each other from first to last, whatever is read. -/
theorem descending_arrange {a : Arrangement} (h : a.Descending) (tokens : List Token) :
    (a.arrange tokens).Descending := by
  induction tokens generalizing a with
  | nil => exact h
  | cons t tokens ih => exact ih (descending_push h t)

/-- No waiting operator outranks the one that arrived last. -/
theorem precedence_le_of_mem_push {a : Arrangement} (h : a.Descending) {o o' : Operator}
    (ho' : o' ∈ (a.push (.operator o)).pending) : o'.precedence ≤ o.precedence := by
  rcases List.mem_cons.1 ho' with rfl | hdrop
  · exact Nat.le_refl _
  · exact Nat.le_of_lt (precedence_lt_of_mem_dropWhile h hdrop)

/-- What the waiting operators are to a reading in a given state: each outranks those before it,
and while a value is to come, a bracket that is opened outranks all of them. -/
structure Fits (a : Arrangement) (s : State) : Prop where
  descending : a.Descending
  lt_of_incomplete : s.complete = false →
    ∀ o ∈ a.pending, o.precedence < (s.level + 1) * Operation.nestingStep

/-- An operator that has just arrived lets none wait that outranks the next bracket. -/
theorem fits_push_priced {a : Arrangement} (h : a.Descending) (op : Operation) (level : Nat) :
    (a.push (.operator (op.priced level))).Fits ⟨level, false⟩ := by
  refine ⟨descending_push h _, fun _ o ho => ?_⟩
  have hle : o.precedence ≤ op.precedenceAt level := precedence_le_of_mem_push h ho
  have htier := op.tier_le
  simp only [Operation.precedenceAt, Operation.nestingStep, Nat.add_mul] at hle ⊢
  omega

/-- The product with what has been read fits as an operator does. -/
theorem fits_arrange_product {a : Arrangement} {s : State} (h : a.Fits s) :
    (a.arrange s.product).Fits ⟨s.level, false⟩ := by
  obtain ⟨level, complete⟩ := s
  cases complete with
  | false => exact h
  | true => exact fits_push_priced h.descending _ level

/-- Reading a lexeme keeps the fit. -/
theorem Fits.of_emits {m : Bindings} {s : State} {u : Lexeme} {e : Emission} (h : Emits m s u e)
    {a : Arrangement} (ha : a.Fits s) : (a.arrange e.tokens).Fits e.state := by
  have hcomplete (b : Arrangement) (hb : b.Descending) (level : Nat) : b.Fits ⟨level, true⟩ :=
    ⟨hb, fun h => nomatch h⟩
  cases h with
  | literal => exact hcomplete _ (descending_arrange ha.descending _) _
  | value => exact hcomplete _ (descending_arrange ha.descending _) _
  | call =>
      rw [arrange_append]
      exact fits_push_priced (descending_arrange ha.descending _) _ _
  | operator op => exact fits_push_priced ha.descending _ _
  | sign => exact fits_push_priced (descending_push ha.descending _) _ _
  | opening =>
      have hproduct := fits_arrange_product ha
      refine ⟨hproduct.descending, fun _ o ho => ?_⟩
      exact Nat.lt_of_lt_of_le (hproduct.lt_of_incomplete rfl o ho)
        (Nat.mul_le_mul_right _ (Nat.le_succ _))
  | closing => exact hcomplete _ ha.descending _

/-- Reading keeps the fit. -/
theorem Fits.of_emitAll {m : Bindings} {s : State} {units : List Lexeme} {e : Emission}
    (h : emitAll m s units = .ok e) {a : Arrangement} (ha : a.Fits s) :
    (a.arrange e.tokens).Fits e.state := by
  induction units generalizing s e a with
  | nil =>
      obtain rfl := Except.ok.inj h
      exact ha
  | cons u units ih =>
      obtain ⟨e₁, e₂, h₁, h₂, rfl⟩ := emitAll_cons_eq_ok_iff.1 h
      rw [Emission.after, arrange_append]
      exact ih h₂ (ha.of_emits h₁)

/-- Before anything is read, nothing waits. -/
theorem fits_empty (s : State) : ({} : Arrangement).Fits s :=
  ⟨List.Pairwise.nil, fun _ _ ho => nomatch ho⟩

end Postfix.Arrangement

end Formula
