import Formula.Proofs.Grammar
import Formula.Proofs.Reduction

/-!
# Formula.Proofs.Acceptance

Whatever has a value is a formula, once its sugar is spelled out.

Reading alone lets more pass: a closing bracket completes a value, whatever stands before it.  But
where none has been completed before it, a value is missing among the tokens, and nothing makes up
for that anywhere else:

* `balance_of_emitAll` — the balance of the tokens is short by one for each such bracket;
* `Viable.of_emitAll` — if there is none, all that has been read is the beginning of a formula;
* `balanced_of_emitAll` — brackets are balanced in what is read to the end.
-/

namespace Formula

open Infix

/-! ## Sugar -/

/-- Whether a lexeme completes a value, or leaves one to come. -/
def Lexeme.completes (m : Bindings) : Lexeme → Bool
  | .literal _ | .closing => true
  | .name letters => m[letters]?.isSome
  | .operator _ | .opening | .stray _ => false

/-- Whether the last of the lexemes completes a value. -/
def completeBehind (m : Bindings) (before : List Lexeme) : Bool :=
  before.getLast?.any (Lexeme.completes m)

/-- Whether a lexeme is a function: a name that is not bound. -/
def Lexeme.isFunction (m : Bindings) : Lexeme → Bool
  | .name letters => m[letters]?.isNone && (Builtin.ofName? letters).isSome
  | .literal _ | .operator _ | .opening | .closing | .stray _ => false

/-- What is left out before a lexeme: zero before a sign, if no value has been completed, and the
product before a name or a bracket, if one has. -/
def Lexeme.implied (complete : Bool) : Lexeme → List Lexeme
  | .operator op => if !complete && op.isSign then [.literal ['0']] else []
  | .name _ | .opening => if complete then [.operator .mul] else []
  | .literal _ | .closing | .stray _ => []

/-- Lexemes with all that is left out between them, read on from where a value has, or has not,
been completed. -/
def desugar (m : Bindings) (complete : Bool) : List Lexeme → List Lexeme
  | [] => []
  | u :: units => u.implied complete ++ u :: desugar m (u.completes m) units

/-- How many closing brackets stand where no value has been completed. -/
def vacancies (m : Bindings) (complete : Bool) : List Lexeme → Nat
  | [] => 0
  | u :: units =>
    (if u = .closing ∧ complete = false then 1 else 0) + vacancies m (u.completes m) units

theorem vacancies_append_cons (m : Bindings) (complete : Bool) (before : List Lexeme) (u : Lexeme)
    (behind : List Lexeme) :
    vacancies m complete (before ++ u :: behind) =
      vacancies m complete (before ++ [u]) + vacancies m (u.completes m) behind := by
  induction before generalizing complete with
  | nil => simp [vacancies]
  | cons w before ih =>
      simp only [List.cons_append, vacancies, ih]
      omega

/-! ## What one lexeme does -/

namespace Infix

variable {m : Bindings} {s : State} {u : Lexeme} {e : Emission}

/-- Whether a value is completed depends on the last lexeme alone. -/
theorem Emits.complete_eq (h : Emits m s u e) : e.state.complete = u.completes m := by
  cases h <;> simp [Lexeme.completes, *]

/-- Brackets are counted as they open and close. -/
theorem Emits.level_eq (h : Emits m s u e) :
    e.state.level + [u].count .closing = s.level + [u].count .opening := by
  cases h <;> simp

theorem State.balance_product (s : State) : balance s.product = -(s.complete.toNat : Int) := by
  cases h : s.complete <;> simp [State.product, h, Token.balance, Operation.priced]

/-- The tokens of a lexeme account for whether it completes a value, but for a closing bracket where
none has been completed. -/
theorem Emits.balance_eq (h : Emits m s u e) :
    balance e.tokens + vacancies m s.complete [u] + s.complete.toNat =
      (e.state.complete.toNat : Int) := by
  cases h with
  | literal => simp [vacancies, Token.balance]
  | value =>
      cases hc : s.complete <;>
        simp [vacancies, State.balance_product, hc, Token.balance]
  | call =>
      cases hc : s.complete <;>
        simp [vacancies, State.balance_product, hc, Token.balance, Operation.priced]
  | operator op => simp [vacancies, Token.balance, Operation.priced]
  | sign => simp [vacancies, Token.balance, Operation.priced]
  | opening =>
      cases hc : s.complete <;>
        simp [vacancies, State.balance_product, hc]
  | closing level complete => cases complete <;> simp [vacancies]

/-! ## What a whole reading does -/

variable {units : List Lexeme}

/-- A character that starts no lexeme is not read. -/
theorem stray_not_mem_of_emitAll (h : emitAll m s units = .ok e) (c : Char) :
    .stray c ∉ units := by
  induction units generalizing s e with
  | nil => simp
  | cons u units ih =>
      obtain ⟨e₁, e₂, h₁, h₂, rfl⟩ := emitAll_cons_eq_ok_iff.1 h
      refine List.not_mem_cons_of_ne_of_not_mem ?_ (ih h₂)
      rintro rfl
      cases h₁

/-- As many brackets are open at the end as have been opened, but not closed, since the start. -/
theorem level_of_emitAll (h : emitAll m s units = .ok e) :
    e.state.level + units.count .closing = s.level + units.count .opening := by
  induction units generalizing s e with
  | nil =>
      obtain rfl := Except.ok.inj h
      simp
  | cons u units ih =>
      obtain ⟨e₁, e₂, h₁, h₂, rfl⟩ := emitAll_cons_eq_ok_iff.1 h
      have hfirst := h₁.level_eq
      have hrest := ih h₂
      rw [← List.singleton_append, List.count_append, List.count_append]
      simp only [Emission.after]
      omega

/-- The tokens of a reading add up to whether it ends with a completed value, less one for each
closing bracket where none has been completed. -/
theorem balance_of_emitAll (h : emitAll m s units = .ok e) :
    balance e.tokens + vacancies m s.complete units + s.complete.toNat =
      (e.state.complete.toNat : Int) := by
  induction units generalizing s e with
  | nil =>
      obtain rfl := Except.ok.inj h
      simp [vacancies]
  | cons u units ih =>
      obtain ⟨e₁, e₂, h₁, h₂, rfl⟩ := emitAll_cons_eq_ok_iff.1 h
      have hfirst := h₁.balance_eq
      have hrest := ih h₂
      have hvacancies := vacancies_append_cons m s.complete [] u units
      simp only [List.nil_append] at hvacancies
      rw [h₁.complete_eq] at hfirst hrest
      rw [hvacancies]
      simp only [Emission.after, balance_append]
      omega

/-- Tokens add up to one value exactly if one has been completed last, and before each closing
bracket. -/
theorem balance_eq_one_iff (h : emitAll m {} units = .ok e) :
    balance e.tokens = 1 ↔ vacancies m false units = 0 ∧ e.state.complete = true := by
  have hcount := balance_of_emitAll h
  cases hc : e.state.complete <;> simp [hc] at hcount ⊢ <;> omega

/-- Vacancies are counted part by part. -/
theorem vacancies_append_of_emitAll (h : emitAll m s units = .ok e) (more : List Lexeme) :
    vacancies m s.complete (units ++ more) =
      vacancies m s.complete units + vacancies m e.state.complete more := by
  induction units generalizing s e with
  | nil =>
      obtain rfl := Except.ok.inj h
      simp [vacancies]
  | cons u units ih =>
      obtain ⟨e₁, e₂, h₁, h₂, rfl⟩ := emitAll_cons_eq_ok_iff.1 h
      have hrest := ih h₂
      rw [h₁.complete_eq] at hrest
      rw [List.cons_append, vacancies, vacancies, hrest, Nat.add_assoc]
      rfl

end Infix

/-! ## Beginnings of formulas -/

/-- Lexemes that an application turns into a formula. -/
def Awaits (m : Bindings) (units : List Lexeme) : Prop :=
  ∀ app, Derives m .app .app app → Derives m .app .expr (units ++ app)

/-- The beginnings of formulas, with a number of open brackets: each bracket follows something that
awaits a value, and the innermost one holds a formula, or something that awaits a value itself. -/
inductive Viable (m : Bindings) : State → List Lexeme → Prop
  | awaiting {units : List Lexeme} : Awaits m units → Viable m ⟨0, false⟩ units
  | formula {units : List Lexeme} : Derives m .app .expr units → Viable m ⟨0, true⟩ units
  | bracket {level : Nat} {complete : Bool} {outer inner : List Lexeme} :
      Awaits m outer → Viable m ⟨level, complete⟩ inner →
        Viable m ⟨level + 1, complete⟩ (outer ++ .opening :: inner)

theorem awaits_nil (m : Bindings) : Awaits m [] := fun _ happ => .app happ

namespace Viable

variable {m : Bindings} {level : Nat} {units : List Lexeme}

/-- What may follow a beginning may follow it inside of further brackets. -/
theorem append_of_innermost {j k : Nat} {complete complete' : Bool} {more : List Lexeme}
    (hinner : ∀ inner, Viable m ⟨j, complete⟩ inner → Viable m ⟨k, complete'⟩ (inner ++ more))
    (h : Viable m ⟨j + level, complete⟩ units) :
    Viable m ⟨k + level, complete'⟩ (units ++ more) := by
  induction level generalizing units with
  | zero => exact hinner units h
  | succ level ih =>
      cases h with
      | bracket houter h =>
          rw [List.append_assoc, List.cons_append]
          exact .bracket houter (ih h)

/-- An application completes what awaits a value. -/
theorem append_app (h : Viable m ⟨level, false⟩ units) {app : List Lexeme}
    (happ : Derives m .app .app app) : Viable m ⟨level, true⟩ (units ++ app) := by
  rw [← Nat.zero_add level] at h ⊢
  refine h.append_of_innermost fun inner hinner => ?_
  cases hinner with
  | awaiting h => exact .formula (h app happ)

/-- A function awaits its argument wherever a value is awaited. -/
theorem append_function (h : Viable m ⟨level, false⟩ units) {letters : String} {f : Builtin}
    (hunbound : m[letters]? = none) (hname : Builtin.ofName? letters = some f) :
    Viable m ⟨level, false⟩ (units ++ [.name letters]) := by
  rw [← Nat.zero_add level] at h ⊢
  refine h.append_of_innermost fun inner hinner => ?_
  cases hinner with
  | awaiting h =>
      refine .awaiting fun app happ => ?_
      rw [List.append_assoc]
      exact h _ (.call hunbound hname happ)

/-- An operator behind a formula awaits its right operand. -/
theorem append_operator (h : Viable m ⟨level, true⟩ units) (op : BinaryOp) :
    Viable m ⟨level, false⟩ (units ++ [.operator op]) := by
  rw [← Nat.zero_add level] at h ⊢
  refine h.append_of_innermost fun inner hinner => ?_
  cases hinner with
  | formula h =>
      refine .awaiting fun app happ => ?_
      rw [List.append_assoc]
      exact .binary op h happ

/-- A bracket may be opened wherever a value is awaited. -/
theorem append_opening (h : Viable m ⟨level, false⟩ units) :
    Viable m ⟨level + 1, false⟩ (units ++ [.opening]) := by
  rw [← Nat.zero_add level] at h
  rw [Nat.add_comm]
  refine h.append_of_innermost fun inner hinner => ?_
  cases hinner with
  | awaiting h => exact .bracket h (.awaiting (awaits_nil m))

/-- A bracket that holds a formula may be closed, and is an application then. -/
theorem append_closing (h : Viable m ⟨level + 1, true⟩ units) :
    Viable m ⟨level, true⟩ (units ++ [.closing]) := by
  rw [Nat.add_comm] at h
  rw [← Nat.zero_add level]
  refine h.append_of_innermost fun inner hinner => ?_
  cases hinner with
  | bracket houter h =>
      cases h with
      | formula h =>
          rw [List.append_assoc, List.cons_append]
          exact .formula (houter _ (.atom (.group h)))

/-- A completed value is followed by the product, where that is left out. -/
theorem append_implied {s : State} (h : Viable m s units) {u : Lexeme}
    (hu : ∀ complete, u.implied complete = if complete then [.operator .mul] else []) :
    Viable m ⟨s.level, false⟩ (units ++ u.implied s.complete) := by
  obtain ⟨level, complete⟩ := s
  cases complete with
  | false => simpa [hu] using h
  | true => simpa [hu] using h.append_operator .mul

/-- A lexeme that is read continues the beginning of a formula, unless it closes a bracket where
no value has been completed. -/
theorem of_emits {s : State} {u : Lexeme} {e : Emission} (h : Viable m s units)
    (hread : Emits m s u e) (hunit : u.IsUnit) (hclosing : u = .closing → s.complete) :
    Viable m e.state (units ++ (u.implied s.complete ++ [u])) := by
  rw [← List.append_assoc]
  cases hread with
  | literal hvalue =>
      have hdenotes := Literal.denotes_of_read_eq_ok hunit hvalue
      simpa [Lexeme.implied] using h.append_app (.atom (.literal hdenotes))
  | value hbound => exact (h.append_implied fun _ => rfl).append_app (.atom (.name hbound))
  | call hunbound hname => exact (h.append_implied fun _ => rfl).append_function hunbound hname
  | operator op => simpa [Lexeme.implied] using h.append_operator op
  | @sign level op hsign =>
      have hzero : Derives m .app .app [.literal ['0']] :=
        .atom (.literal (.whole (List.cons_ne_nil _ _) (List.forall_mem_singleton.2 (by decide))))
      simpa [Lexeme.implied, hsign] using (h.append_app hzero).append_operator op
  | opening => exact (h.append_implied fun _ => rfl).append_opening
  | closing level complete =>
      obtain rfl : complete = true := hclosing rfl
      simpa [Lexeme.implied] using h.append_closing

/-- Lexemes that are read continue the beginning of a formula, if each bracket is closed where a
value has been completed. -/
theorem of_emitAll {s : State} {more : List Lexeme} {e : Emission} (h : Viable m s units)
    (hread : emitAll m s more = .ok e) (hunit : ∀ u ∈ more, u.IsUnit)
    (hvacancies : vacancies m s.complete more = 0) :
    Viable m e.state (units ++ desugar m s.complete more) := by
  induction more generalizing s e units with
  | nil =>
      obtain rfl := Except.ok.inj hread
      simpa [desugar] using h
  | cons u more ih =>
      obtain ⟨e₁, e₂, h₁, h₂, rfl⟩ := emitAll_cons_eq_ok_iff.1 hread
      rw [List.forall_mem_cons] at hunit
      rw [vacancies, Nat.add_eq_zero_iff] at hvacancies
      have hclosing : u = .closing → s.complete := by
        intro hu
        simpa [hu] using hvacancies.1
      have hrest := ih (h.of_emits h₁ hunit.1 hclosing) h₂ hunit.2
        (by rw [h₁.complete_eq]; exact hvacancies.2)
      rw [h₁.complete_eq] at hrest
      simpa [desugar, Emission.after] using hrest

end Viable

/-! ## Accepted texts -/

/-- Brackets are closed only if they have been opened, and all of them are. -/
def Balanced (units : List Lexeme) : Prop :=
  (∀ part, part <+: units → part.count .closing ≤ part.count .opening) ∧
    units.count .opening = units.count .closing

/-- Brackets are balanced in what is read to the end with none of them left open. -/
theorem balanced_of_emitAll {m : Bindings} {units : List Lexeme} {e : Emission}
    (h : emitAll m {} units = .ok e) (hlevel : e.state.level = 0) : Balanced units := by
  constructor
  · rintro part ⟨rest, rfl⟩
    obtain ⟨e₁, -, hpart, -, -⟩ := emitAll_append_eq_ok_iff.1 h
    have hcount : _ = 0 + _ := level_of_emitAll hpart
    omega
  · have hcount : _ = 0 + _ := level_of_emitAll h
    omega

/-- Without vacancies, a value has been completed wherever a bracket is closed. -/
theorem completes_of_vacancies_eq_zero {m : Bindings} {before behind : List Lexeme} {u : Lexeme}
    (h : vacancies m false (before ++ u :: .closing :: behind) = 0) : u.completes m := by
  rw [vacancies_append_cons, vacancies] at h
  simp only [Nat.add_eq_zero_iff, true_and] at h
  simpa using h.2.1

/-- From the start of a text, a value has been completed exactly if the last lexeme completes one. -/
theorem complete_of_emitAll {m : Bindings} {units : List Lexeme} {e : Emission}
    (h : emitAll m {} units = .ok e) :
    e.state.complete = completeBehind m units := by
  rcases List.eq_nil_or_concat units with rfl | ⟨before, u, rfl⟩
  · obtain rfl := Except.ok.inj h
    rfl
  · rw [List.concat_eq_append, emitAll_append_eq_ok_iff] at h
    obtain ⟨e₁, e₂, -, hlast, rfl⟩ := h
    rw [emitAll_singleton, emit_eq_ok_iff] at hlast
    simpa [completeBehind, Emission.after] using hlast.complete_eq

/-- What is read of a text is spelled by it, without the blanks around. -/
theorem spells_trimmed_of_emitAll {text : String} {m : Bindings} {s : State} {e : Emission}
    (h : emitAll m s (Lexeme.ofText text.toList) = .ok e) :
    Spells (Lexeme.ofText text.toList) (trimmed text) := by
  rw [← Lexeme.ofText_trim, ← trimmed] at h ⊢
  exact spells_ofText (stray_not_mem_of_emitAll h)

/-- Whatever has a value is spelled by lexemes that make a formula once their sugar is spelled out.
What stands before a closing bracket or at the end completes a value, and brackets are balanced. -/
theorem exists_derives_desugar_of_evaluate_eq_ok {text : String} {m : Bindings} {v : Binary32}
    (h : evaluate text m = .ok v) :
    ∃ units, Spells units (trimmed text) ∧ Derives m .app .expr (desugar m false units) ∧
      (∀ before u behind, units = before ++ u :: .closing :: behind → u.completes m) ∧
      (∀ u ∈ units.getLast?, u.completes m) ∧ Balanced units := by
  obtain ⟨e, hread, hlevel, hreduce⟩ := evaluate_eq_ok_iff.1 h
  have hspells := spells_trimmed_of_emitAll hread
  have hbalance : balance e.tokens = 1 := by
    have hlength := Postfix.balance_of_reduceAll_eq_ok hreduce
    rw [Postfix.balance_order] at hlength
    simpa using hlength.symm
  -- One value is left and at most one has been completed last, so none is missing elsewhere.
  obtain ⟨hvacancies, hcomplete⟩ :
      vacancies m false (Lexeme.ofText text.toList) = 0 ∧ e.state.complete = true := by
    have hcount := balance_of_emitAll hread
    rw [hbalance] at hcount
    cases hc : e.state.complete <;> simp [hc] at hcount ⊢ <;> omega
  have hformula := Viable.of_emitAll (.awaiting (awaits_nil m)) hread (isUnit_of_spells hspells)
    hvacancies
  have hlast : ∀ u ∈ (Lexeme.ofText text.toList).getLast?, u.completes m := by
    intro u hu
    rwa [complete_of_emitAll hread, completeBehind, Option.mem_def.1 hu] at hcomplete
  refine ⟨_, hspells, ?_, ?_, hlast, balanced_of_emitAll hread hlevel⟩
  · have hstate : e.state = ⟨0, true⟩ := by rw [← hlevel, ← hcomplete]
    rw [hstate] at hformula
    cases hformula with
    | formula hformula => exact hformula
  · intro before u behind hunits
    rw [hunits] at hvacancies
    exact completes_of_vacancies_eq_zero hvacancies

/-- A value with a sign, a product before a bracket and a bound name. -/
theorem exists_derives_desugar_of_evaluate_eq_ok_sugar :
    let m : Bindings := Std.TreeMap.ofList [("x", (7 : Binary32))]
    evaluate "3(-2 + x)" m = .ok 15 ∧
      ∃ units, Spells units (trimmed "3(-2 + x)") ∧ Derives m .app .expr (desugar m false units) ∧
        (∀ before u behind, units = before ++ u :: .closing :: behind → u.completes m) ∧
        (∀ u ∈ units.getLast?, u.completes m) ∧ Balanced units := by
  intro m
  have h : evaluate "3(-2 + x)" m = .ok 15 := by decide +kernel
  exact ⟨h, exists_derives_desugar_of_evaluate_eq_ok h⟩

end Formula
