import Formula.Proofs.Acceptance

/-!
# Formula.Proofs.Underflow

When an operator finds its operands on the stack.

That values and operators add up is not enough: an operator must not be settled before its operands
are.  An operator is settled by one that binds no tighter, and nearly always a value stands between
the two, and is there to be taken.  The exception is a function right behind a function, which
settles the first one while a value is still to come.  The first function then takes the value that
has been completed last, wherever that is; if none has been completed, the formula has no value.

* `Runs.append_operators` — waiting operators can be settled if that leaves a value;
* `Supplied.of_emits`, `supplied_of_emitAll` — what has been settled can be reduced, at every point
  of a reading that does not open with two functions in a row;
* `exists_evaluate_eq_ok` — a text whose values and operators add up has a value, unless it opens
  with two functions in a row.
-/

namespace Formula

open Infix

/-! ## Operations that are known -/

/-- The operations that there are. -/
inductive Operation.IsKnown : Operation → Prop
  | binary (op : BinaryOp) : IsKnown (.binary op.symbol)
  | function (f : Builtin) : IsKnown (.function f.name)

/-- Only functions bind as tight as functions. -/
theorem Operation.IsKnown.exists_eq_function {op : Operation} (h : op.IsKnown)
    (htier : op.tier = 4) : ∃ f : Builtin, op = .function f.name := by
  cases h with
  | binary op => cases op <;> contradiction
  | function f => exact ⟨f, rfl⟩

/-- The product with what has been read is priced inside the brackets open at the time. -/
theorem Infix.State.eq_priced_of_mem_product {s : State} {o : Operator}
    (ho : .operator o ∈ s.product) :
    o = (Operation.binary BinaryOp.mul.symbol).priced s.level := by
  cases hc : s.complete with
  | false => simp [State.product, hc] at ho
  | true => simpa [State.product, hc] using ho

/-- A reading adds operators that are known, priced inside the brackets open at the time. -/
theorem Infix.Emits.exists_priced {m : Bindings} {s : State} {u : Lexeme} {e : Emission}
    (h : Emits m s u e) {o : Operator} (ho : .operator o ∈ e.tokens) :
    ∃ op, Operation.IsKnown op ∧ o = op.priced s.level := by
  cases h with
  | literal => simp at ho
  | value => exact ⟨_, .binary .mul, State.eq_priced_of_mem_product (by simpa using ho)⟩
  | call hunbound hname =>
      obtain rfl := Builtin.ofName?_eq_some_iff.1 hname
      rcases List.mem_append.1 ho with ho | ho
      · exact ⟨_, .binary .mul, State.eq_priced_of_mem_product ho⟩
      · exact ⟨_, .function _, by simpa using ho⟩
  | operator op => exact ⟨_, .binary op, by simpa using ho⟩
  | sign => exact ⟨_, .binary _, by simpa using ho⟩
  | opening => exact ⟨_, .binary .mul, State.eq_priced_of_mem_product ho⟩
  | closing => cases ho

/-- Whatever is read, its operators are known, and priced inside some brackets. -/
theorem Infix.exists_priced_of_emitAll {m : Bindings} {s : State} {units : List Lexeme}
    {e : Emission} (h : emitAll m s units = .ok e) {o : Operator} (ho : .operator o ∈ e.tokens) :
    ∃ op level, Operation.IsKnown op ∧ o = op.priced level := by
  induction units generalizing s e with
  | nil =>
      obtain rfl := Except.ok.inj h
      cases ho
  | cons u units ih =>
      obtain ⟨e₁, e₂, h₁, h₂, rfl⟩ := emitAll_cons_eq_ok_iff.1 h
      rcases List.mem_append.1 ho with hfirst | hrest
      · obtain ⟨op, hop, ho⟩ := h₁.exists_priced hfirst
        exact ⟨op, _, hop, ho⟩
      · exact ih h₂ hrest

/-- Whatever is read, its operators are known. -/
theorem Infix.isKnown_of_emitAll {m : Bindings} {s : State} {units : List Lexeme} {e : Emission}
    (h : emitAll m s units = .ok e) {o : Operator} (ho : .operator o ∈ e.tokens) :
    o.operation.IsKnown := by
  obtain ⟨op, level, hop, rfl⟩ := exists_priced_of_emitAll h ho
  exact hop

/-! ## Settling operators on a stack -/

namespace Postfix

/-- Tokens that can be reduced when nothing is on the stack. -/
def Runs (tokens : List Token) : Prop := ∃ stack, reduceAll [] tokens = .ok stack

theorem runs_nil : Runs [] := ⟨[], rfl⟩

/-- Numbers can always be reduced. -/
theorem Runs.append_number {tokens : List Token} (h : Runs tokens) (value : Binary32) :
    Runs (tokens ++ [.number value]) := by
  obtain ⟨stack, hstack⟩ := h
  exact ⟨value :: stack, by rw [reduceAll_append_of_eq_ok hstack]; rfl⟩

/-- Tokens that can be reduced leave a value, if there are any. -/
theorem Runs.one_le_balance {tokens : List Token} (h : Runs tokens) (hne : tokens ≠ []) :
    1 ≤ balance tokens := by
  obtain ⟨stack, hstack⟩ := h
  have hlength := balance_of_reduceAll_eq_ok hstack
  obtain ⟨init, t, rfl⟩ := (List.eq_nil_or_concat tokens).resolve_left hne
  rw [List.concat_eq_append, reduceAll_append_eq_ok_iff] at hstack
  obtain ⟨stack₁, -, hlast⟩ := hstack
  -- Whatever the last token is, reducing it puts a value on the stack.
  have hpos : stack ≠ [] := by
    rintro rfl
    rw [reduceAll_singleton, reduce_eq_ok_iff] at hlast
    cases hlast
  have := List.length_pos_iff.2 hpos
  rw [List.length_nil] at hlength
  omega

/-- Operators take values away, or leave their number as it is. -/
theorem balance_operators_nonpos (ops : List Operator) : balance (ops.map Token.operator) ≤ 0 := by
  induction ops with
  | nil => exact Int.le_refl 0
  | cons o ops ih =>
      obtain ⟨op, precedence⟩ := o
      cases op <;> simp only [List.map_cons, balance_cons, Token.balance] <;> omega

/-- Operators can be reduced one after the other, if one value at least is left at the end. -/
theorem exists_reduceAll_operators {ops : List Operator} (hknown : ∀ o ∈ ops, o.operation.IsKnown)
    {stack : List Binary32} (h : 1 ≤ stack.length + balance (ops.map Token.operator)) :
    ∃ stack', reduceAll stack (ops.map Token.operator) = .ok stack' := by
  induction ops generalizing stack with
  | nil => exact ⟨stack, rfl⟩
  | cons o ops ih =>
      obtain ⟨op, precedence⟩ := o
      rw [List.forall_mem_cons] at hknown
      have hops := balance_operators_nonpos ops
      simp only [List.map_cons, balance_cons] at h
      cases hknown.1 with
      | binary op =>
          simp only [Token.balance] at h
          rcases stack with _ | ⟨right, _ | ⟨left, rest⟩⟩
          · simp only [List.length_nil] at h
            omega
          · simp only [List.length_cons, List.length_nil] at h
            omega
          · obtain ⟨stack', hstack'⟩ : ∃ stack',
                reduceAll (op.apply left right :: rest) (ops.map Token.operator) = .ok stack' :=
              ih hknown.2 (by simp only [List.length_cons] at h ⊢; omega)
            exact ⟨stack', reduceAll_cons_eq_ok_iff.2
              ⟨_, .binary op precedence left right rest, hstack'⟩⟩
      | function f =>
          simp only [Token.balance] at h
          rcases stack with _ | ⟨operand, rest⟩
          · simp only [List.length_nil] at h
            omega
          · obtain ⟨stack', hstack'⟩ : ∃ stack',
                reduceAll (f.apply operand :: rest) (ops.map Token.operator) = .ok stack' :=
              ih hknown.2 (by simp only [List.length_cons] at h ⊢; omega)
            exact ⟨stack', reduceAll_cons_eq_ok_iff.2 ⟨_, .call f precedence operand rest, hstack'⟩⟩

/-- Operators can be reduced behind other tokens, if those leave values enough. -/
theorem Runs.append_operators {tokens : List Token} (h : Runs tokens) {ops : List Operator}
    (hknown : ∀ o ∈ ops, o.operation.IsKnown)
    (hbalance : 1 ≤ balance tokens + balance (ops.map Token.operator)) :
    Runs (tokens ++ ops.map Token.operator) := by
  obtain ⟨stack, hstack⟩ := h
  have hlength := balance_of_reduceAll_eq_ok hstack
  obtain ⟨stack', hstack'⟩ : ∃ stack', reduceAll stack (ops.map Token.operator) = .ok stack' := by
    refine exists_reduceAll_operators hknown ?_
    rw [hlength, List.length_nil]
    omega
  exact ⟨stack', by rw [reduceAll_append_of_eq_ok hstack, hstack']⟩

end Postfix

namespace Postfix.Arrangement

/-- The operators that an arriving one settles. -/
def settledBy (a : Arrangement) (o : Operator) : List Operator :=
  a.pending.takeWhile fun o' => o.precedence ≤ o'.precedence

theorem mem_settledBy {a : Arrangement} {o o' : Operator} (h : o' ∈ a.settledBy o) :
    o' ∈ a.pending ∧ o.precedence ≤ o'.precedence :=
  ⟨(List.takeWhile_prefix _).subset h, by simpa using List.mem_takeWhile_imp h⟩

theorem settled_push_operator (a : Arrangement) (o : Operator) :
    (a.push (.operator o)).settled.toList =
      a.settled.toList ++ (a.settledBy o).map Token.operator := by
  simp [push, settledBy]

/-- What has been settled stays settled. -/
theorem settled_arrange_ne_empty {a : Arrangement} (h : a.settled ≠ #[]) (tokens : List Token) :
    (a.arrange tokens).settled ≠ #[] := by
  induction tokens generalizing a with
  | nil => exact h
  | cons t tokens ih =>
      refine ih fun hpush => ?_
      cases t with
      | number value => simp [push] at hpush
      | operator o =>
          have hsettled := congrArg Array.toList hpush
          rw [settled_push_operator] at hsettled
          exact h (by simpa using (List.append_eq_nil_iff.1 hsettled).1)

/-- If values outweigh operators, one has been settled. -/
theorem settled_ne_empty_of_balance {a : Arrangement} (h : 1 ≤ balance a.toList) :
    a.settled ≠ #[] := by
  intro hempty
  have hpending := balance_operators_nonpos a.pending
  simp only [toList, hempty, List.nil_append] at h
  omega

/-- Reading adds the balance of what is read. -/
theorem balance_arrange (a : Arrangement) (tokens : List Token) :
    balance (a.arrange tokens).toList = balance a.toList + balance tokens := by
  rw [balance_perm (perm_arrange a tokens), balance_append]

/-- An operator behind a completed value settles operators whose operands are there. -/
theorem runs_push_of_balance {a : Arrangement} (hruns : Runs a.settled.toList)
    (hknown : ∀ o ∈ a.pending, o.operation.IsKnown) (hbalance : 1 ≤ balance a.toList)
    (o : Operator) : Runs (a.push (.operator o)).settled.toList := by
  rw [settled_push_operator]
  refine hruns.append_operators (fun o' ho' => hknown o' (mem_settledBy ho').1) ?_
  · have hsplit : balance (a.pending.map Token.operator) =
        balance ((a.settledBy o).map Token.operator) +
          balance ((a.pending.dropWhile fun o' => o.precedence ≤ o'.precedence).map .operator) := by
      rw [settledBy, ← balance_append, ← List.map_append, List.takeWhile_append_dropWhile]
    have hrest := balance_operators_nonpos
      (a.pending.dropWhile fun o' => o.precedence ≤ o'.precedence)
    rw [toList, balance_append] at hbalance
    omega

/-- Functions neither add nor take away values. -/
theorem balance_functions {ops : List Operator}
    (h : ∀ o ∈ ops, ∃ f : Builtin, o.operation = .function f.name) :
    balance (ops.map Token.operator) = 0 := by
  induction ops with
  | nil => rfl
  | cons o ops ih =>
      obtain ⟨op, precedence⟩ := o
      rw [List.forall_mem_cons] at h
      obtain ⟨f, hf⟩ := h.1
      obtain rfl : op = .function f.name := hf
      rw [List.map_cons, balance_cons, ih h.2]
      rfl

/-- A function where a value is to come settles functions only, and they find a value on the stack
if anything has been settled before. -/
theorem runs_push_function {a : Arrangement} {level : Nat} (hfits : a.Fits ⟨level, false⟩)
    (hruns : Runs a.settled.toList)
    (hknown : ∀ o ∈ a.pending, ∃ op l, Operation.IsKnown op ∧ o = op.priced l)
    (hne : a.settled ≠ #[]) (name : String) :
    Runs (a.push (.operator ((Operation.function name).priced level))).settled.toList := by
  have hfunctions : ∀ o ∈ a.settledBy ((Operation.function name).priced level),
      ∃ f : Builtin, o.operation = .function f.name := by
    intro o ho
    obtain ⟨hmem, hle⟩ := mem_settledBy ho
    have hlt : o.precedence < (level + 1) * Operation.nestingStep :=
      hfits.lt_of_incomplete rfl o hmem
    obtain ⟨op, l, hop, rfl⟩ := hknown o hmem
    have htier := op.tier_le
    refine hop.exists_eq_function ?_
    simp only [Operation.priced, Operation.precedenceAt, Operation.nestingStep,
      show (Operation.function name).tier = 4 from rfl] at hle hlt
    omega
  rw [settled_push_operator]
  refine hruns.append_operators (fun o ho => ?_) ?_
  · obtain ⟨f, hf⟩ := hfunctions o ho
    exact hf ▸ .function f
  · have hvalue := hruns.one_le_balance (by simpa using hne)
    rw [balance_functions hfunctions]
    omega

end Postfix.Arrangement

open Postfix Postfix.Arrangement

/-! ## Readings that open with two functions -/

/-- Two functions in a row, behind nothing but functions and opening brackets. -/
def OpensWithCalls (m : Bindings) (units : List Lexeme) : Prop :=
  ∃ front f g back, units = front ++ f :: g :: back ∧ f.isFunction m ∧ g.isFunction m ∧
    ∀ u ∈ front, u = .opening ∨ u.isFunction m

/-- What is known of the tokens of a reading while they are put in order.  As long as nothing has
been settled, only functions and brackets have been read; and then the last lexeme, unless it is a
function, is a bracket that outranks all functions before it. -/
structure Supplied (m : Bindings) (units : List Lexeme) (s : State) (a : Postfix.Arrangement) :
    Prop where
  fits : a.Fits s
  known : ∀ o ∈ a.pending, ∃ op level, Operation.IsKnown op ∧ o = op.priced level
  balance_eq : balance a.toList = s.complete.toNat
  runs : Runs a.settled.toList
  opens : a.settled = #[] → ∀ u ∈ units, u = .opening ∨ u.isFunction m
  last : a.settled = #[] → (∀ u ∈ units.getLast?, u.isFunction m = false) →
    ∀ name, ∀ o ∈ a.pending, o.precedence < (Operation.function name).precedenceAt s.level

namespace Supplied

variable {m : Bindings} {units : List Lexeme} {s : State} {a : Postfix.Arrangement}

theorem isKnown (h : Supplied m units s a) : ∀ o ∈ a.pending, o.operation.IsKnown := by
  intro o ho
  obtain ⟨op, level, hop, rfl⟩ := h.known o ho
  exact hop

/-- Once a value has been completed, something has been settled. -/
theorem settled_ne_empty (h : Supplied m units s a) (hcomplete : s.complete = true) :
    a.settled ≠ #[] := by
  refine settled_ne_empty_of_balance ?_
  rw [h.balance_eq, hcomplete]
  decide

/-- Reading a lexeme lets only operators wait that are known and priced. -/
theorem known_arrange (h : Supplied m units s a) {u : Lexeme} {e : Emission}
    (hread : Emits m s u e) :
    ∀ o ∈ (a.arrange e.tokens).pending, ∃ op level, Operation.IsKnown op ∧ o = op.priced level := by
  intro o ho
  rcases mem_pending_arrange ho with hmem | hmem
  · exact h.known o hmem
  · obtain ⟨op, hop, ho⟩ := hread.exists_priced hmem
    exact ⟨op, _, hop, ho⟩

/-- The product with what has been read settles operators whose operands are there. -/
theorem runs_product (h : Supplied m units s a) : Runs (a.arrange s.product).settled.toList := by
  obtain ⟨level, complete⟩ := s
  cases complete with
  | false => exact h.runs
  | true =>
      refine runs_push_of_balance h.runs h.isKnown ?_ _
      rw [h.balance_eq]
      exact Int.le_refl 1

/-- If nothing has been settled, there is nothing to take a product with. -/
theorem arrange_product (h : Supplied m units s a) (hempty : (a.arrange s.product).settled = #[]) :
    s.complete = false ∧ a.arrange s.product = a := by
  obtain ⟨level, complete⟩ := s
  cases complete with
  | false => exact ⟨rfl, rfl⟩
  | true => exact absurd hempty (settled_arrange_ne_empty (h.settled_ne_empty rfl) _)

/-- If nothing has been settled, a function where a value is to come settles nothing, unless it is
the second of two functions in a row. -/
theorem settledBy_eq_nil (h : Supplied m units s a) (hempty : a.settled = #[]) {letters : String}
    (hcall : (Lexeme.name letters).isFunction m)
    (hcalls : ¬OpensWithCalls m (units ++ [.name letters])) :
    a.settledBy ((Operation.function letters).priced s.level) = [] := by
  have hlast : ∀ u ∈ units.getLast?, u.isFunction m = false := by
    intro u hu
    rw [← Bool.not_eq_true]
    intro hfunction
    obtain ⟨front, rfl⟩ := List.getLast?_eq_some_iff.1 hu
    refine hcalls ⟨front, u, .name letters, [], by simp, hfunction, hcall, fun w hw => ?_⟩
    exact h.opens hempty w (List.mem_append_left _ hw)
  have hlt := h.last hempty hlast letters
  cases hpending : a.pending with
  | nil => simp [settledBy, hpending]
  | cons o pending =>
      have ho := hlt o (hpending ▸ List.mem_cons_self)
      rw [settledBy, hpending, List.takeWhile_cons_of_neg]
      exact fun hle => Nat.not_le.2 ho (of_decide_eq_true hle)

section Emits

variable {u : Lexeme} {e : Emission}

/-- Values and operators add up behind a lexeme, if brackets are closed behind values only. -/
theorem balance_of_emits (h : Supplied m units s a) (hread : Emits m s u e)
    (hclosing : u = .closing → s.complete) :
    balance (a.arrange e.tokens).toList = e.state.complete.toNat := by
  have hvacancies : vacancies m s.complete [u] = 0 := by
    by_cases hu : u = .closing
    · simp [vacancies, hu, hclosing hu]
    · simp [vacancies, hu]
  have hemission := hread.balance_eq
  rw [hvacancies] at hemission
  rw [balance_arrange, h.balance_eq]
  omega

/-- Behind a lexeme, it is enough to know that something has been settled and can be reduced. -/
theorem of_settled (h : Supplied m units s a) (hread : Emits m s u e)
    (hclosing : u = .closing → s.complete) (hruns : Runs (a.arrange e.tokens).settled.toList)
    (hne : (a.arrange e.tokens).settled ≠ #[]) :
    Supplied m (units ++ [u]) e.state (a.arrange e.tokens) :=
  ⟨h.fits.of_emits hread, h.known_arrange hread, h.balance_of_emits hread hclosing, hruns,
    fun hempty => absurd hempty hne, fun hempty => absurd hempty hne⟩

/-- As long as nothing has been settled, it is enough to know that another bracket or function has
been read, and that a bracket outranks whatever waits. -/
theorem of_waiting (h : Supplied m units s a) (hread : Emits m s u e)
    (hclosing : u = .closing → s.complete) (hempty : (a.arrange e.tokens).settled = #[])
    (hu : u = .opening ∨ u.isFunction m)
    (hlast : u.isFunction m = false → ∀ name, ∀ o ∈ (a.arrange e.tokens).pending,
      o.precedence < (Operation.function name).precedenceAt e.state.level) :
    Supplied m (units ++ [u]) e.state (a.arrange e.tokens) := by
  have hbefore : a.settled = #[] := by_contra fun hne => settled_arrange_ne_empty hne _ hempty
  refine ⟨h.fits.of_emits hread, h.known_arrange hread, h.balance_of_emits hread hclosing, ?_,
    fun _ => ?_, fun _ hfunction => hlast (hfunction u (by simp))⟩
  · rw [hempty]
    exact runs_nil
  · rw [List.forall_mem_append, List.forall_mem_singleton]
    exact ⟨h.opens hbefore, hu⟩

/-- Reading a lexeme that does not make two functions in a row the opening keeps every settled
operator supplied, if brackets are closed behind values only. -/
theorem of_emits (h : Supplied m units s a) (hread : Emits m s u e)
    (hclosing : u = .closing → s.complete) (hcalls : ¬OpensWithCalls m (units ++ [u])) :
    Supplied m (units ++ [u]) e.state (a.arrange e.tokens) := by
  have hsettled := h.of_settled hread hclosing
  have hwaiting := h.of_waiting hread hclosing
  have hproduct := h.runs_product
  cases hread with
  | @literal level run value =>
      refine hsettled ?_ (by simp [arrange, push])
      simpa [arrange, push] using h.runs.append_number value
  | @value _ letters value =>
      rw [arrange_append] at hsettled ⊢
      refine hsettled ?_ (by simp [arrange, push])
      simpa [arrange, push] using hproduct.append_number value
  | @operator level op =>
      refine hsettled (runs_push_of_balance h.runs h.isKnown ?_ _) ?_
      · rw [h.balance_eq]
        exact Int.le_refl 1
      · exact settled_arrange_ne_empty (h.settled_ne_empty rfl) _
  | @sign level op hsign =>
      have hzero : (a.push (.number 0)).settled ≠ #[] := by simp [push]
      refine hsettled (runs_push_of_balance (a := a.push (.number 0)) ?_ h.isKnown ?_ _) ?_
      · simpa [push] using h.runs.append_number 0
      · have hbalance := balance_arrange a [.number 0]
        rw [h.balance_eq] at hbalance
        exact Int.le_of_eq hbalance.symm
      · exact settled_arrange_ne_empty hzero [_]
  | @call _ letters f hunbound hname =>
      have hcall : (Lexeme.name letters).isFunction m := by
        simp [Lexeme.isFunction, hunbound, hname]
      rw [arrange_append] at hsettled hwaiting ⊢
      by_cases hempty : (a.arrange s.product).settled = #[]
      · -- Nothing has been settled yet, and this function settles nothing either.
        refine hwaiting ?_ (.inr hcall) fun hfunction => ?_
        · have hnothing := (h.arrange_product hempty).2
          rw [hnothing] at hempty ⊢
          have hpush := settled_push_operator a ((Operation.function letters).priced s.level)
          rw [h.settledBy_eq_nil hempty hcall hcalls, hempty] at hpush
          exact Array.toList_inj.1 hpush
        · rw [hcall] at hfunction
          contradiction
      · exact hsettled (runs_push_function (fits_arrange_product h.fits) hproduct
          (h.known_arrange (.opening s)) hempty letters) (settled_arrange_ne_empty hempty [_])
  | opening =>
      by_cases hempty : (a.arrange s.product).settled = #[]
      · refine hwaiting hempty (.inl rfl) fun _ name o ho => ?_
        obtain ⟨hincomplete, hnothing⟩ := h.arrange_product hempty
        rw [hnothing] at ho
        exact Nat.lt_of_lt_of_le (h.fits.lt_of_incomplete hincomplete o ho) (Nat.le_add_right _ _)
      · exact hsettled hproduct hempty
  | closing level complete =>
      exact hsettled h.runs (h.settled_ne_empty (hclosing rfl))

end Emits

end Supplied

variable {m : Bindings}

/-- Before anything is read, nothing is settled, and nothing waits. -/
theorem supplied_nil : Supplied m [] {} {} :=
  ⟨fits_empty _, by simp, rfl, runs_nil, by simp, by simp⟩

/-- What has been settled can be reduced, at every point of a reading without vacancies that does
not open with two functions in a row. -/
theorem supplied_of_emitAll {units : List Lexeme} {e : Emission} (h : emitAll m {} units = .ok e)
    (hvacancies : vacancies m false units = 0) (hcalls : ¬OpensWithCalls m units) :
    Supplied m units e.state (({} : Postfix.Arrangement).arrange e.tokens) := by
  induction units using List.reverseRecOn generalizing e with
  | nil =>
      obtain rfl := Except.ok.inj h
      exact supplied_nil
  | append_singleton units u ih =>
      obtain ⟨e₁, e₂, h₁, h₂, rfl⟩ := emitAll_append_eq_ok_iff.1 h
      rw [emitAll_singleton, emit_eq_ok_iff] at h₂
      rw [show false = ({} : State).complete from rfl, vacancies_append_of_emitAll h₁,
        Nat.add_eq_zero_iff] at hvacancies
      have hfirst : ¬OpensWithCalls m units := by
        rintro ⟨front, f, g, back, rfl, hf, hg, hfront⟩
        exact hcalls ⟨front, f, g, back ++ [u], by simp, hf, hg, hfront⟩
      have hclosing : u = .closing → e₁.state.complete := by
        intro hu
        simpa [vacancies, hu] using hvacancies.2
      rw [Emission.after, arrange_append]
      exact (ih h₁ hvacancies.1 hfirst).of_emits h₂ hclosing hcalls

/-- A text that is read to the end, with all brackets closed behind values and a value at the end,
has a value, unless it opens with two functions in a row. -/
theorem exists_evaluate_eq_ok {text : String} {e : Emission}
    (h : emitAll m {} (Lexeme.ofText text.toList) = .ok e) (hstate : e.state = ⟨0, true⟩)
    (hvacancies : vacancies m false (Lexeme.ofText text.toList) = 0)
    (hcalls : ¬OpensWithCalls m (Lexeme.ofText text.toList)) : ∃ v, evaluate text m = .ok v := by
  have hsupplied := supplied_of_emitAll h hvacancies hcalls
  have hbalance : balance (({} : Postfix.Arrangement).arrange e.tokens).toList = 1 := by
    rw [hsupplied.balance_eq, hstate]
    rfl
  have hruns : Runs (order e.tokens) := by
    refine hsupplied.runs.append_operators hsupplied.isKnown ?_
    rw [← balance_append]
    exact Int.le_of_eq hbalance.symm
  obtain ⟨stack, hstack⟩ := hruns
  have hlength := balance_of_reduceAll_eq_ok hstack
  rw [← toList_arrange_empty, hbalance] at hlength
  obtain ⟨v, rfl⟩ := List.length_eq_one_iff.1 (show stack.length = 1 by
    rw [List.length_nil] at hlength
    omega)
  exact ⟨v, evaluate_eq_ok_iff.2 ⟨e, h, by rw [hstate], hstack⟩⟩

end Formula
