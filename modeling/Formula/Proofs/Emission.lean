import Formula.Proofs.Spelling

/-!
# Formula.Proofs.Emission

What reading emits, apart from the places of lexemes and from what was read before.

How a lexeme is read depends on two things only: how many brackets are open, and whether a value
has just been completed.  `emit` is the tokens it then adds, and the state it leaves; `Emits` lists
the ways in which that can happen, one rule for each.

* `emit_eq_ok_iff` — every emission follows one of the rules;
* `erase_step`, `erase_read` — reading adds what is emitted to the tokens it already has;
* `emitAll_raise` — inside further brackets the same is emitted, at a higher price;
* `mapError_toPostfix`, `mapError_evaluate` — converting and evaluating a text, places aside, are
  functions of its lexemes.
-/

namespace Formula

open Infix

/-! ## States and emissions -/

namespace Infix

/-- What decides how the next lexeme is read. -/
structure State where
  /-- The number of open brackets. -/
  level : Nat := 0
  /-- Whether a value has just been completed. -/
  complete : Bool := false
deriving DecidableEq, Repr

/-- Tokens that are added to a reading, and the state they leave it in. -/
structure Emission where
  tokens : List Token
  state : State
deriving DecidableEq, Repr

/-- The state of a reading. -/
def Progress.state (p : Progress) : State := ⟨p.level, p.complete⟩

/-- A reading in a given state that has no tokens yet. -/
def State.start (s : State) : Progress :=
  { openings := List.replicate s.level 0, complete := s.complete }

@[simp] theorem State.state_start (s : State) : s.start.state = s := by
  simp [start, Progress.state, Progress.level]

@[simp] theorem State.tokens_start (s : State) : s.start.tokens = #[] := rfl

@[simp] theorem State.complete_start (s : State) : s.start.complete = s.complete := rfl

@[simp] theorem State.openings_start (s : State) :
    s.start.openings = List.replicate s.level 0 := rfl

/-- The outcome of a reading without places. -/
def erase : Except PlacedFault Progress → Except Fault Emission
  | .ok p => .ok ⟨p.tokens.toList, p.state⟩
  | .error found => .error found.fault

/-- Tokens that were there before. -/
def Emission.after (before : List Token) (e : Emission) : Emission :=
  ⟨before ++ e.tokens, e.state⟩

@[simp] theorem Emission.after_nil (e : Emission) : e.after [] = e := rfl

/-- A reading that has come about by an emission has its tokens, behind those it had before, and its
state. -/
theorem exists_emission_of_erase_eq {q : Progress} {before : List Token}
    {outcome : Except Fault Emission} (h : erase (.ok q) = outcome.map (Emission.after before)) :
    ∃ e, outcome = .ok e ∧ q.tokens.toList = before ++ e.tokens ∧ q.state = e.state := by
  cases outcome with
  | error fault => cases h
  | ok e => exact ⟨e, rfl, by simpa [erase, Except.map, Emission.after] using h⟩

/-- What reading a lexeme in a given state emits. -/
def emit (m : Bindings) (s : State) (u : Lexeme) : Except Fault Emission :=
  erase (step m s.start ⟨0, u⟩)

/-- What reading lexemes one after the other emits. -/
def emitAll (m : Bindings) (s : State) : List Lexeme → Except Fault Emission
  | [] => .ok ⟨[], s⟩
  | u :: units => do
      let e ← emit m s u
      let rest ← emitAll m e.state units
      return rest.after e.tokens

/-! ## Rules of emission -/

/-- The product that a completed value enters with what follows it. -/
def State.product (s : State) : List Token :=
  if s.complete then [.operator ((Operation.binary BinaryOp.mul.symbol).priced s.level)] else []

@[simp] theorem State.product_incomplete (level : Nat) : State.product ⟨level, false⟩ = [] := rfl

/-! ## What each step of a reading does to its tokens and its state -/

namespace Progress

variable (p : Progress)

@[simp] theorem toList_number (value : Binary32) :
    (p.number value).tokens.toList = p.tokens.toList ++ [.number value] := by
  simp [number]

@[simp] theorem state_number (value : Binary32) : (p.number value).state = ⟨p.state.level, true⟩ :=
  rfl

@[simp] theorem toList_operator (op : Operation) :
    (p.operator op).tokens.toList = p.tokens.toList ++ [.operator (op.priced p.state.level)] := by
  simp [operator, state]

@[simp] theorem state_operator (op : Operation) :
    (p.operator op).state = ⟨p.state.level, false⟩ := rfl

@[simp] theorem toList_factor : p.factor.tokens.toList = p.tokens.toList ++ p.state.product := by
  cases h : p.complete <;> simp [factor, binary, State.product, state, h]

@[simp] theorem level_factor : p.factor.state.level = p.state.level := by
  unfold factor
  split <;> rfl

@[simp] theorem state_opening (offset : Nat) :
    (p.opening offset).state = ⟨p.state.level + 1, false⟩ := rfl

@[simp] theorem toList_opening (offset : Nat) :
    (p.opening offset).tokens.toList = p.tokens.toList := rfl

@[simp] theorem state_closing (outer : List Nat) :
    (p.closing outer).state = ⟨outer.length, true⟩ := rfl

@[simp] theorem toList_closing (outer : List Nat) :
    (p.closing outer).tokens.toList = p.tokens.toList := rfl

end Progress

/-- The outcome of a step depends on the reading by its state, but for the tokens it has. -/
theorem erase_step (m : Bindings) (p : Progress) (u : PlacedLexeme) :
    erase (step m p u) = (emit m p.state u.lexeme).map (Emission.after p.tokens.toList) := by
  have hcomplete : p.complete = p.state.complete := rfl
  have hlevel : p.openings.length = p.state.level := rfl
  rw [emit]
  cases hu : u.lexeme with
  | literal run =>
      cases hc : p.state.complete <;> cases hread : Literal.read run <;>
        simp [step, hu, hcomplete, hc, hread, erase, Except.map, Emission.after]
  | name letters =>
      cases hvalue : m[letters]? <;> cases hname : Builtin.ofName? letters <;>
        simp [step, hu, hvalue, hname, erase, Except.map, Emission.after]
  | operator op =>
      cases hc : p.state.complete <;> cases hsign : op.isSign <;>
        simp [step, hu, hcomplete, hc, hsign, Progress.binary, erase, Except.map, Emission.after]
  | opening => simp [step, hu, erase, Except.map, Emission.after]
  | closing =>
      cases hopen : p.openings <;>
        simp_all [step, ← hlevel, List.replicate_succ, erase, Except.map, Emission.after]
  | stray c => simp [step, hu, erase, Except.map]

/-- The ways in which a lexeme is read. -/
inductive Emits (m : Bindings) : State → Lexeme → Emission → Prop
  | literal {level : Nat} {run : List Char} {value : Binary32} :
      Literal.read run = .ok value →
        Emits m ⟨level, false⟩ (.literal run) ⟨[.number value], ⟨level, true⟩⟩
  | value {s : State} {letters : String} {value : Binary32} :
      m[letters]? = some value →
        Emits m s (.name letters) ⟨s.product ++ [.number value], ⟨s.level, true⟩⟩
  | call {s : State} {letters : String} {f : Builtin} :
      m[letters]? = none → Builtin.ofName? letters = some f →
        Emits m s (.name letters)
          ⟨s.product ++ [.operator ((Operation.function letters).priced s.level)], ⟨s.level, false⟩⟩
  | operator {level : Nat} (op : BinaryOp) :
      Emits m ⟨level, true⟩ (.operator op)
        ⟨[.operator ((Operation.binary op.symbol).priced level)], ⟨level, false⟩⟩
  | sign {level : Nat} {op : BinaryOp} :
      op.isSign →
        Emits m ⟨level, false⟩ (.operator op)
          ⟨[.number 0, .operator ((Operation.binary op.symbol).priced level)], ⟨level, false⟩⟩
  | opening (s : State) : Emits m s .opening ⟨s.product, ⟨s.level + 1, false⟩⟩
  | closing (level : Nat) (complete : Bool) :
      Emits m ⟨level + 1, complete⟩ .closing ⟨[], ⟨level, true⟩⟩

/-- A lexeme is read in one of these ways, if it can be read at all. -/
theorem emit_eq_ok_iff {m : Bindings} {s : State} {u : Lexeme} {e : Emission} :
    emit m s u = .ok e ↔ Emits m s u e := by
  obtain ⟨level, complete⟩ := s
  constructor
  · intro h
    cases u with
    | literal run =>
        cases complete <;> cases hread : Literal.read run <;>
          simp [emit, step, hread, erase] at h
        subst h
        exact .literal hread
    | name letters =>
        cases hvalue : m[letters]? with
        | some value =>
            simp [emit, step, hvalue, erase] at h
            subst h
            exact .value hvalue
        | none =>
            cases hname : Builtin.ofName? letters <;>
              simp [emit, step, hvalue, hname, erase] at h
            subst h
            exact .call hvalue hname
    | operator op =>
        cases complete <;> cases hsign : op.isSign <;>
          simp [emit, step, hsign, Progress.binary, erase] at h
        · subst h
          exact .sign hsign
        · subst h
          exact .operator op
        · subst h
          exact .operator op
    | opening =>
        simp [emit, step, erase] at h
        subst h
        exact .opening _
    | closing =>
        cases level <;> simp [emit, step, List.replicate_succ, erase] at h
        subst h
        exact .closing _ _
    | stray c => simp [emit, step, erase] at h
  · rintro (hread | hvalue | ⟨hvalue, hname⟩ | op | hsign | _ | _)
    · simp [emit, step, hread, erase]
    · simp [emit, step, hvalue, erase]
    · simp [emit, step, hvalue, hname, erase]
    · simp [emit, step, Progress.binary, erase]
    · simp [emit, step, hsign, Progress.binary, erase]
    · simp [emit, step, erase]
    · simp [emit, step, List.replicate_succ, erase]

/-! ## Several lexemes -/

@[simp] theorem emitAll_nil (m : Bindings) (s : State) : emitAll m s [] = .ok ⟨[], s⟩ := rfl

@[simp] theorem emitAll_singleton (m : Bindings) (s : State) (u : Lexeme) :
    emitAll m s [u] = emit m s u := by
  cases h : emit m s u <;> simp [emitAll, h, bind, Except.bind, pure, Except.pure, Emission.after]

/-- Lexemes are emitted one part after the other. -/
theorem emitAll_append (m : Bindings) (s : State) (first second : List Lexeme) :
    emitAll m s (first ++ second) = do
      let e ← emitAll m s first
      let rest ← emitAll m e.state second
      return rest.after e.tokens := by
  induction first generalizing s with
  | nil => cases h : emitAll m s second <;> simp [h, bind, Except.bind, pure, Except.pure]
  | cons u units ih =>
      cases hu : emit m s u with
      | error fault => simp [emitAll, hu, bind, Except.bind]
      | ok e =>
          simp only [List.cons_append, emitAll, hu, ih, bind, Except.bind]
          cases hunits : emitAll m e.state units with
          | error fault => rfl
          | ok e' =>
              simp only [pure, Except.pure, Emission.after]
              cases emitAll m e'.state second <;> simp

/-- A first part that is read leaves its state to the second. -/
theorem emitAll_append_of_eq_ok {m : Bindings} {s : State} {first : List Lexeme} {e : Emission}
    (h : emitAll m s first = .ok e) (second : List Lexeme) :
    emitAll m s (first ++ second) = (emitAll m e.state second).map (Emission.after e.tokens) := by
  rw [emitAll_append, h]
  rfl

/-- A first part that cannot be read is all that matters. -/
theorem emitAll_append_of_eq_error {m : Bindings} {s : State} {first : List Lexeme} {fault : Fault}
    (h : emitAll m s first = .error fault) (second : List Lexeme) :
    emitAll m s (first ++ second) = .error fault := by
  rw [emitAll_append, h]
  rfl

/-- A lexeme that is read leaves its state to those behind it. -/
theorem emitAll_cons_of_emits {m : Bindings} {s : State} {u : Lexeme} {e : Emission}
    (h : Emits m s u e) (units : List Lexeme) :
    emitAll m s (u :: units) = (emitAll m e.state units).map (Emission.after e.tokens) := by
  have hu : emitAll m s [u] = .ok e := by rw [emitAll_singleton, emit_eq_ok_iff.2 h]
  exact emitAll_append_of_eq_ok hu units

/-- Two parts are read exactly if the second is read in the state that the first leaves. -/
theorem emitAll_append_eq_ok_iff {m : Bindings} {s : State} {first second : List Lexeme}
    {e : Emission} :
    emitAll m s (first ++ second) = .ok e ↔
      ∃ e₁ e₂, emitAll m s first = .ok e₁ ∧ emitAll m e₁.state second = .ok e₂ ∧
        e = e₂.after e₁.tokens := by
  cases h₁ : emitAll m s first with
  | error fault => simp [emitAll_append_of_eq_error h₁]
  | ok e₁ =>
      rw [emitAll_append_of_eq_ok h₁]
      cases h₂ : emitAll m e₁.state second <;> simp [Except.map, h₂, eq_comm]

/-- One lexeme and more are read exactly if the lexeme is, and then the others. -/
theorem emitAll_cons_eq_ok_iff {m : Bindings} {s : State} {u : Lexeme} {units : List Lexeme}
    {e : Emission} :
    emitAll m s (u :: units) = .ok e ↔
      ∃ e₁ e₂, Emits m s u e₁ ∧ emitAll m e₁.state units = .ok e₂ ∧ e = e₂.after e₁.tokens := by
  rw [← List.singleton_append, emitAll_append_eq_ok_iff]
  simp only [emitAll_singleton, emit_eq_ok_iff]

/-- A bracket emits what is emitted inside of it, and is a completed value, whatever that is. -/
theorem emitAll_group {m : Bindings} {s : State} {units : List Lexeme} {e : Emission}
    (h : emitAll m ⟨s.level + 1, false⟩ units = .ok e) (hlevel : e.state.level = s.level + 1) :
    emitAll m s (.opening :: (units ++ [.closing])) =
      .ok ⟨s.product ++ e.tokens, ⟨s.level, true⟩⟩ := by
  have hclose : emitAll m e.state [.closing] = .ok ⟨[], ⟨s.level, true⟩⟩ := by
    have hstate : e.state = ⟨s.level + 1, e.state.complete⟩ := by rw [← hlevel]
    rw [emitAll_singleton, emit_eq_ok_iff, hstate]
    exact .closing s.level e.state.complete
  rw [emitAll_cons_of_emits (.opening s), emitAll_append_of_eq_ok h, hclose]
  simp [Except.map, Emission.after]

/-- Reading adds what is emitted, in its state, to the tokens it has. -/
theorem erase_read (m : Bindings) (p : Progress) (units : List PlacedLexeme) :
    erase (read m p units) =
      (emitAll m p.state (units.map (·.lexeme))).map (Emission.after p.tokens.toList) := by
  induction units generalizing p with
  | nil => simp [read, erase, pure, Except.pure, Except.map, Emission.after]
  | cons u units ih =>
      have hstep := erase_step m p u
      rw [read_cons, List.map_cons, emitAll]
      cases hp : step m p u with
      | error found =>
          rw [hp] at hstep
          cases hu : emit m p.state u.lexeme <;> simp_all [erase, Except.map, bind, Except.bind]
      | ok q =>
          rw [hp] at hstep
          obtain ⟨e, hu, htokens, hstate⟩ := exists_emission_of_erase_eq hstep
          simp only [hu, bind, Except.bind, ih, htokens, hstate]
          cases emitAll m e.state (units.map (·.lexeme)) <;>
            simp [Except.map, pure, Except.pure, Emission.after]

end Infix

/-! ## Further brackets around -/

/-- The token as it is read inside `k` further brackets. -/
def Token.raise (k : Nat) : Token → Token
  | .number value => .number value
  | .operator ⟨op, precedence⟩ => .operator ⟨op, precedence + k * Operation.nestingStep⟩

@[simp] theorem Token.raise_number (k : Nat) (value : Binary32) :
    Token.raise k (.number value) = .number value := rfl

@[simp] theorem Token.raise_priced (k : Nat) (op : Operation) (level : Nat) :
    Token.raise k (.operator (op.priced level)) = .operator (op.priced (level + k)) := by
  simp only [raise, Operation.priced, Operation.precedenceAt, Nat.add_mul]
  congr 2
  omega

@[simp] theorem Token.unpriced_raise (k : Nat) (t : Token) : (t.raise k).unpriced = t.unpriced := by
  cases t <;> rfl

namespace Infix

/-- The state inside `k` further brackets. -/
def State.raise (k : Nat) (s : State) : State := ⟨s.level + k, s.complete⟩

@[simp] theorem State.level_raise (k : Nat) (s : State) : (s.raise k).level = s.level + k := rfl

@[simp] theorem State.raise_mk (k level : Nat) (complete : Bool) :
    State.raise k ⟨level, complete⟩ = ⟨level + k, complete⟩ := rfl

@[simp] theorem State.product_raise (k : Nat) (s : State) :
    (s.raise k).product = s.product.map (Token.raise k) := by
  cases h : s.complete <;> simp [product, raise, h]

/-- The emission inside `k` further brackets. -/
def Emission.raise (k : Nat) (e : Emission) : Emission :=
  ⟨e.tokens.map (Token.raise k), e.state.raise k⟩

/-- A lexeme that is read is read the same way inside further brackets. -/
theorem Emits.raise {m : Bindings} {s : State} {u : Lexeme} {e : Emission} (h : Emits m s u e)
    (k : Nat) : Emits m (s.raise k) u (e.raise k) := by
  cases h with
  | literal hread => exact .literal hread
  | value hvalue =>
      have h := Emits.value (s := s.raise k) hvalue
      simpa [Emission.raise] using h
  | call hvalue hname =>
      have h := Emits.call (s := s.raise k) hvalue hname
      simpa [Emission.raise] using h
  | @operator level op =>
      have h := @Emits.operator m (level + k) op
      simpa [Emission.raise] using h
  | @sign level op hsign =>
      have h := @Emits.sign m (level + k) op hsign
      simpa [Emission.raise] using h
  | opening =>
      have h := Emits.opening (m := m) (s.raise k)
      simpa [Emission.raise, Nat.add_right_comm] using h
  | closing level complete =>
      have h := Emits.closing (m := m) (level + k) complete
      simpa [Emission.raise, Nat.add_right_comm] using h

/-- Lexemes that are read are read the same way inside further brackets. -/
theorem emitAll_raise {m : Bindings} {s : State} {units : List Lexeme} {e : Emission}
    (h : emitAll m s units = .ok e) (k : Nat) : emitAll m (s.raise k) units = .ok (e.raise k) := by
  induction units generalizing s e with
  | nil =>
      obtain rfl := Except.ok.inj h
      rfl
  | cons u units ih =>
      obtain ⟨e₁, e₂, h₁, h₂, rfl⟩ := emitAll_cons_eq_ok_iff.1 h
      refine emitAll_cons_eq_ok_iff.2 ⟨e₁.raise k, e₂.raise k, h₁.raise k, ih h₂, ?_⟩
      simp [Emission.raise, Emission.after]

/-! ## Whole texts -/

/-- The tokens that lexemes emit from the start, unless a bracket is left open. -/
def tokensOf (m : Bindings) (units : List Lexeme) : Except Fault (List Token) :=
  match emitAll m {} units with
  | .error fault => .error fault
  | .ok e => if e.state.level = 0 then .ok e.tokens else .error .unmatchedBracket

/-- Reading a text finds the tokens of its lexemes. -/
theorem mapError_ofText (m : Bindings) (text : List Char) :
    (ofText m text).mapError PlacedFault.fault =
      (tokensOf m (Lexeme.ofText text)).map Infix.mk := by
  have hread : erase (read m {} (PlacedLexeme.ofText text)) =
      (emitAll m {} (Lexeme.ofText text)).map (Emission.after []) := by
    rw [erase_read, PlacedLexeme.map_lexeme_ofText]
    rfl
  rw [ofText, tokensOf]
  cases he : emitAll m {} (Lexeme.ofText text) <;>
    cases hp : read m {} (PlacedLexeme.ofText text) <;>
    simp only [he, hp, erase, Except.map, reduceCtorEq, Except.error.injEq, Except.ok.injEq,
      Emission.after_nil] at hread
  · subst hread
    rfl
  · next e p =>
    subst hread
    obtain ⟨tokens, openings, complete⟩ := p
    cases openings <;> rfl

end Infix

/-- The postfix order of lexemes. -/
def convert (m : Bindings) (units : List Lexeme) : Except Fault Postfix :=
  if units = [] then .error .noInput
  else (Infix.tokensOf m units).map fun tokens => .ofInfix ⟨tokens⟩

/-- Places aside, converting a text is converting its lexemes. -/
theorem mapError_toPostfix (text : String) (m : Bindings) :
    (toPostfix text m).mapError Failure.fault = convert m (Lexeme.ofText text.toList) := by
  unfold toPostfix convert
  by_cases hnil : Lexeme.ofText text.toList = []
  · rw [if_pos hnil, if_pos (by simpa [trimmed] using Lexeme.trim_eq_nil_iff.2 hnil)]
    rfl
  · have htrim : ¬(trimmed text).isEmpty := by
      simpa [trimmed, Lexeme.trim_eq_nil_iff] using hnil
    have htokens := Infix.mapError_ofText m (trimmed text)
    rw [trimmed, Lexeme.ofText_trim, ← trimmed] at htokens
    rw [if_neg hnil, if_neg htrim]
    cases hp : Infix.ofText m (trimmed text) <;>
      cases ht : Infix.tokensOf m (Lexeme.ofText text.toList) <;>
      simp_all [Except.mapError, Except.map, PlacedFault.failure]

theorem toPostfix_eq_ok_iff {text : String} {m : Bindings} {p : Postfix} :
    toPostfix text m = .ok p ↔ convert m (Lexeme.ofText text.toList) = .ok p := by
  rw [← mapError_toPostfix]
  cases toPostfix text m <;> simp [Except.mapError]

/-- Lexemes are converted exactly if there are any, all are read and no bracket is left open. -/
theorem convert_eq_ok_iff {m : Bindings} {units : List Lexeme} {p : Postfix} :
    convert m units = .ok p ↔
      units ≠ [] ∧
        ∃ e, emitAll m {} units = .ok e ∧ e.state.level = 0 ∧ .ofInfix ⟨e.tokens⟩ = p := by
  unfold convert
  split
  · simp_all
  · next hne =>
    cases he : emitAll m {} units with
    | error fault => simp [tokensOf, he, Except.map]
    | ok e => by_cases hlevel : e.state.level = 0 <;> simp [tokensOf, he, hlevel, Except.map, hne]

/-- Places aside, evaluating a text is evaluating its lexemes. -/
theorem mapError_evaluate (text : String) (m : Bindings) :
    (evaluate text m).mapError Failure.fault =
      convert m (Lexeme.ofText text.toList) >>= Postfix.eval := by
  rw [← mapError_toPostfix, evaluate]
  cases toPostfix text m with
  | error failure => rfl
  | ok p =>
      simp only [Except.mapError, Postfix.value, bind, Except.bind]
      cases p.eval <;> rfl

end Formula
