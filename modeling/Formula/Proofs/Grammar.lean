import Mathlib.Data.List.TakeWhile
import Formula.Tree
import Formula.Proofs.Spelling

/-!
# Formula.Proofs.Grammar

The grammar of formulas without sugar, and the tree that a formula of it stands for.

```
expr := app (operator app)*
app  := atom | function argument
atom := literal | bound name | "(" expr ")"
```

`Derives` is this grammar; what a function may be applied to is left open, an atom or another
application.  It is flat and says nothing about which operands belong to an operator.  `Parses`
says that: it is the same language in layers, one for each strength of binding, every layer open
to the left, and gives every formula its tree.

* `Literal.denotes_of_read_eq_ok` — only the literals of the grammar can be read;
* `exists_parses_of_derives` — every formula of the flat grammar has a tree in the layered one.
-/

namespace Formula

open Lexeme

/-! ## Literals -/

/-- What a written literal denotes: digits, or digits, a dot and more digits. -/
inductive Literal.Denotes : List Char → Binary32 → Prop
  | whole {digits : List Char} :
      digits ≠ [] → (∀ c ∈ digits, c.isDigit) → Denotes digits (wholeValue digits)
  | decimal {digits places : List Char} :
      digits ≠ [] → (∀ c ∈ digits, c.isDigit) → places ≠ [] → (∀ c ∈ places, c.isDigit) →
        Denotes (digits ++ '.' :: places) (value digits places)

/-- The digits behind a dot decide how a literal is read. -/
theorem Literal.read_append_dot {digits : List Char} (h : ∀ c ∈ digits, c.isDigit)
    (rest : List Char) :
    read (digits ++ '.' :: rest) =
      if rest.takeWhile Char.isDigit = [] then .error ⟨digits.length + 1, .missingFraction⟩
      else if (rest.takeWhile Char.isDigit).length < rest.length then
        .error ⟨digits.length + 1 + (rest.takeWhile Char.isDigit).length, .secondDot⟩
      else .ok (value digits (rest.takeWhile Char.isDigit)) := by
  have htake : (digits ++ '.' :: rest).takeWhile Char.isDigit = digits := by
    rw [List.takeWhile_append_of_pos h]
    simp
  have hdrop : (digits ++ '.' :: rest).dropWhile Char.isDigit = '.' :: rest := by
    rw [List.dropWhile_append_of_pos h]
    rfl
  simp only [read, htake, hdrop, List.isEmpty_iff]

/-- Every literal is read as what it denotes. -/
theorem Literal.read_eq_ok_of_denotes {run : List Char} {v : Binary32} (h : Denotes run v) :
    read run = .ok v := by
  cases h with
  | whole _ hdigits => exact read_eq_whole hdigits
  | @decimal digits places _ hdigits hne hplaces =>
      have hall : places.takeWhile Char.isDigit = places := List.takeWhile_eq_self_iff.2 hplaces
      rw [read_append_dot hdigits, hall, if_neg hne, if_neg (Nat.lt_irrefl _)]

/-- A run that starts as a literal does and holds digits and dots is made of digits, or it has a dot
behind its first digits. -/
theorem Lexeme.exists_digits_of_isUnit {run : List Char} (h : (Lexeme.literal run).IsUnit) :
    ∃ digits, digits ≠ [] ∧ (∀ c ∈ digits, c.isDigit) ∧
      (run = digits ∨ ∃ rest, run = digits ++ '.' :: rest ∧ ∀ c ∈ rest, isNumeric c) := by
  obtain ⟨c, tail, rfl, hc, htail⟩ := h
  refine ⟨(c :: tail).takeWhile Char.isDigit, ?_, List.all_eq_true.1 List.all_takeWhile, ?_⟩
  · rw [List.takeWhile_cons_of_pos hc]
    exact List.cons_ne_nil _ _
  · have hsplit : (c :: tail).takeWhile Char.isDigit ++ (c :: tail).dropWhile Char.isDigit =
        c :: tail := List.takeWhile_append_dropWhile
    have hhead := List.head?_dropWhile_not Char.isDigit (c :: tail)
    have hnumeric : ∀ d ∈ (c :: tail).dropWhile Char.isDigit, isNumeric d := by
      intro d hd
      rcases List.mem_cons.1 ((List.dropWhile_suffix _).subset hd) with rfl | hmem
      · exact isNumeric_of_isDigit hc
      · exact htail d hmem
    cases hdrop : (c :: tail).dropWhile Char.isDigit with
    | nil => exact .inl (by rw [hdrop, List.append_nil] at hsplit; exact hsplit.symm)
    | cons d rest =>
        rw [hdrop] at hsplit hhead hnumeric
        rw [List.forall_mem_cons] at hnumeric
        obtain rfl : d = '.' := by
          simpa [isNumeric, show d.isDigit = false from hhead] using hnumeric.1
        exact .inr ⟨rest, hsplit.symm, hnumeric.2⟩

/-- Of the runs that start as a literal does and hold digits and dots, only literals are read. -/
theorem Literal.denotes_of_read_eq_ok {run : List Char} {v : Binary32}
    (hunit : (Lexeme.literal run).IsUnit) (h : read run = .ok v) : Denotes run v := by
  obtain ⟨digits, hne, hdigits, rfl | ⟨rest, rfl, -⟩⟩ := exists_digits_of_isUnit hunit
  · rw [read_eq_whole hdigits, Except.ok.injEq] at h
    exact h ▸ .whole hne hdigits
  · rw [read_append_dot hdigits] at h
    split at h
    · cases h
    split at h
    · cases h
    · next hempty hlength =>
      have hall : rest.takeWhile Char.isDigit = rest :=
        (List.takeWhile_prefix _).eq_of_length_le (Nat.not_lt.1 hlength)
      rw [hall] at hempty
      rw [hall, Except.ok.injEq] at h
      exact h ▸ .decimal hne hdigits hempty (List.takeWhile_eq_self_iff.1 hall)

/-! ## The flat grammar -/

/-- The parts of a formula. -/
inductive Category where
  | expr
  | app
  | atom
deriving DecidableEq, Repr

/-- The grammar of formulas without sugar, where a function is applied to an `argument`. -/
inductive Derives (m : Bindings) (argument : Category) : Category → List Lexeme → Prop
  | literal {run : List Char} {v : Binary32} :
      Literal.Denotes run v → Derives m argument .atom [.literal run]
  | name {letters : String} {v : Binary32} :
      m[letters]? = some v → Derives m argument .atom [.name letters]
  | group {units : List Lexeme} :
      Derives m argument .expr units → Derives m argument .atom (.opening :: (units ++ [.closing]))
  | atom {units : List Lexeme} : Derives m argument .atom units → Derives m argument .app units
  | call {letters : String} {f : Builtin} {units : List Lexeme} :
      m[letters]? = none → Builtin.ofName? letters = some f → Derives m argument argument units →
        Derives m argument .app (.name letters :: units)
  | app {units : List Lexeme} : Derives m argument .app units → Derives m argument .expr units
  | binary {left right : List Lexeme} (op : BinaryOp) :
      Derives m argument .expr left → Derives m argument .app right →
        Derives m argument .expr (left ++ .operator op :: right)

/-! ## The layered grammar and its trees -/

/-- How tight an operator binds.  Calls bind tighter, with 4, and atoms are units, with 5. -/
def BinaryOp.tightness : BinaryOp → Nat
  | add | sub => 1
  | mul | div | mod => 2
  | pow => 3

theorem BinaryOp.tightness_le (op : BinaryOp) : op.tightness ≤ 3 := by
  cases op <;> decide

/-- The tree of a formula in which nothing outside of brackets binds less tight than `k`.  An
operator takes formulas of its own tightness on its left, and tighter ones on its right. -/
inductive Parses (m : Bindings) : Nat → List Lexeme → Tree → Prop
  | literal {run : List Char} {v : Binary32} :
      Literal.Denotes run v → Parses m 5 [.literal run] (.number v)
  | name {letters : String} {v : Binary32} :
      m[letters]? = some v → Parses m 5 [.name letters] (.number v)
  | group {units : List Lexeme} {t : Tree} :
      Parses m 1 units t → Parses m 5 (.opening :: (units ++ [.closing])) t
  | call {letters : String} {f : Builtin} {units : List Lexeme} {t : Tree} :
      m[letters]? = none → Builtin.ofName? letters = some f → Parses m 5 units t →
        Parses m 4 (.name letters :: units) (.call f t)
  | binary {left right : List Lexeme} {t u : Tree} (op : BinaryOp) :
      Parses m op.tightness left t → Parses m (op.tightness + 1) right u →
        Parses m op.tightness (left ++ .operator op :: right) (.binary op t u)
  | tighter {k : Nat} {units : List Lexeme} {t : Tree} :
      Parses m (k + 1) units t → Parses m k units t

/-- The layer that the parts of a formula belong to. -/
def Category.tightness : Category → Nat
  | expr => 1
  | app => 4
  | atom => 5

/-- Tight formulas belong to all the looser layers. -/
theorem Parses.of_le {m : Bindings} {j k : Nat} {units : List Lexeme} {t : Tree}
    (h : Parses m k units t) (hjk : j ≤ k) : Parses m j units t := by
  induction k with
  | zero => rwa [Nat.le_zero.1 hjk]
  | succ k ih =>
      rcases Nat.le_succ_iff.1 hjk with hle | rfl
      · exact ih h.tighter hle
      · exact h

theorem Parses.ne_nil {m : Bindings} {k : Nat} {units : List Lexeme} {t : Tree}
    (h : Parses m k units t) : units ≠ [] := by
  induction h <;> simp_all

/-- An operator with its right operand, written behind a formula, finds its left operand there:
the part from the last operator on that binds less tight. -/
theorem exists_parses_append {m : Bindings} {k : Nat} {left right : List Lexeme} {t u : Tree}
    {op : BinaryOp} (hleft : Parses m k left t) (hk : k ≤ op.tightness)
    (hright : Parses m (op.tightness + 1) right u) :
    ∃ t', Parses m k (left ++ .operator op :: right) t' := by
  have hop := op.tightness_le
  induction hleft with
  | literal => omega
  | name => omega
  | group => omega
  | call => omega
  | @binary left middle t₁ t₂ op' h₁ h₂ _ ih₂ =>
      rcases Nat.lt_or_eq_of_le hk with hlt | heq
      · obtain ⟨t', ht'⟩ := ih₂ hlt
        refine ⟨.binary op' t₁ t', ?_⟩
        rw [List.append_assoc, List.cons_append]
        exact .binary op' h₁ ht'
      · have hwhole := Parses.binary op' h₁ h₂
        rw [heq] at hwhole ⊢
        exact ⟨_, .binary op hwhole hright⟩
  | tighter h ih =>
      rcases Nat.lt_or_eq_of_le hk with hlt | heq
      · obtain ⟨t', ht'⟩ := ih hlt
        exact ⟨t', ht'.tighter⟩
      · have hwhole := h.tighter
        rw [heq] at hwhole ⊢
        exact ⟨_, .binary op hwhole hright⟩

/-- Every formula has a tree. -/
theorem exists_parses_of_derives {m : Bindings} {category : Category} {units : List Lexeme}
    (h : Derives m .atom category units) : ∃ t, Parses m category.tightness units t := by
  induction h with
  | literal hv => exact ⟨_, .literal hv⟩
  | name hv => exact ⟨_, .name hv⟩
  | group _ ih =>
      obtain ⟨t, ht⟩ := ih
      exact ⟨t, .group ht⟩
  | atom _ ih =>
      obtain ⟨t, ht⟩ := ih
      exact ⟨t, .tighter ht⟩
  | call hunbound hname _ ih =>
      obtain ⟨t, ht⟩ := ih
      exact ⟨_, .call hunbound hname ht⟩
  | app _ ih =>
      obtain ⟨t, ht⟩ := ih
      exact ⟨t, ht.of_le (by decide)⟩
  | binary op _ _ ih₁ ih₂ =>
      obtain ⟨t, ht⟩ := ih₁
      obtain ⟨u, hu⟩ := ih₂
      have hop := op.tightness_le
      refine exists_parses_append ht ?_ (hu.of_le (Nat.succ_le_succ hop))
      cases op <;> decide

end Formula
