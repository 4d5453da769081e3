import Formula.Proofs.Faults
import Formula.Proofs.Underflow

/-!
# Formula.Proofs.Course

What holds at every point of a conversion.

A text is read lexeme by lexeme, and what is read is put in order token by token.  `course` lists
the readings on the way: the first, before any lexeme, and one behind each lexeme that can be read.
Two laws hold in all of them, whatever becomes of the text:

1. the waiting operators outrank each other from the first to the latest, and each is priced inside
   some of the brackets that have been open; so there are no more of them than there are tiers at
   the levels reached, however long the text is;
2. numbers outweigh binary operators, settled or waiting, by one if a value has just been completed
   and by none if not, less one for each bracket that was closed where no value had been completed.

* `course_induction` — what holds first, and behind each lexeme that is read, holds in the course;
* `toPostfix_eq_ok_iff_course` — the tokens of the last reading, in order, are what is converted;
* `stacked_of_course` — the waiting operators of every reading;
* `balance_of_course` — the numbers and binary operators of every reading.
-/

namespace Formula

open Infix Postfix

/-! ## The course of a reading -/

namespace Infix

/-- The readings one after the other: before the first lexeme, and behind each one as long as they
can be read.  Blanks between lexemes leave a reading as it is. -/
def course (m : Bindings) (p : Progress) : List PlacedLexeme → List Progress
  | [] => [p]
  | u :: units => p :: match step m p u with
    | .ok q => course m q units
    | .error _ => []

/-- The readings that a lexeme leads to, one for each operator it adds.  A name or a bracket is
taken for a factor first, even if the name turns out to be unknown. -/
def moments (m : Bindings) (p : Progress) (u : PlacedLexeme) : List Progress :=
  match u.lexeme with
  | .name _ | .opening => p.factor :: (step m p u).toOption.toList
  | .literal _ | .operator _ | .closing | .stray _ => (step m p u).toOption.toList

/-- The tokens read so far, as far as they can be put in order. -/
def Progress.arrangement (p : Progress) : Arrangement :=
  ({} : Arrangement).arrange p.tokens.toList

/-- The greatest number of brackets that are open in one of the readings. -/
def deepest (readings : List Progress) : Nat :=
  readings.foldl (fun depth p => max depth p.level) 0

/-- How many of the lexemes close a bracket where the reading before them has no value completed. -/
def vacantClosings (rounds : List (Progress × PlacedLexeme)) : Nat :=
  rounds.countP fun (p, u) => u.lexeme = .closing ∧ p.complete = false

section Course

variable {m : Bindings} {p q : Progress} {units : List PlacedLexeme} {i : Nat}

@[simp] theorem getElem?_course_zero : (course m p units)[0]? = some p := by
  cases units <;> rfl

/-- A reading comes behind another one exactly if the lexeme between them leads from one to the
other. -/
theorem getElem?_course_succ_eq_some_iff :
    (course m p units)[i + 1]? = some q ↔
      ∃ p' u, (course m p units)[i]? = some p' ∧ units[i]? = some u ∧ step m p' u = .ok q := by
  induction units generalizing p i with
  | nil => simp [course]
  | cons u units ih =>
      cases hstep : step m p u with
      | error found => cases i <;> simp [course, hstep]
      | ok q' =>
          cases i with
          | zero => simp [course, hstep]
          | succ i => simpa [course, hstep] using ih

/-- What holds first, and behind each lexeme that is read, holds in the course. -/
theorem course_induction {motive : Nat → Progress → Prop} (start : motive 0 p)
    (round : ∀ i p' u q, (course m p units)[i]? = some p' → units[i]? = some u →
      step m p' u = .ok q → motive i p' → motive (i + 1) q)
    (h : (course m p units)[i]? = some q) : motive i q := by
  induction i generalizing q with
  | zero =>
      obtain rfl : p = q := by simpa using h
      exact start
  | succ i ih =>
      obtain ⟨p', u, hp', hu, hstep⟩ := getElem?_course_succ_eq_some_iff.1 h
      exact round i p' u q hp' hu hstep (ih hp')

/-- The course goes to the end exactly if all lexemes can be read. -/
theorem getElem?_course_length_eq_some_iff :
    (course m p units)[units.length]? = some q ↔ read m p units = .ok q := by
  induction units generalizing p with
  | nil => simp [course, read, pure, Except.pure]
  | cons u units ih =>
      rw [read_cons_eq_ok_iff]
      cases hstep : step m p u with
      | error found => simp [course, hstep]
      | ok p' => simpa [course, hstep] using ih

/-- A lexeme that is read adds what it emits. -/
theorem exists_emits_of_step_eq_ok {u : PlacedLexeme} (h : step m p u = .ok q) :
    ∃ e, Emits m p.state u.lexeme e ∧ q.tokens.toList = p.tokens.toList ++ e.tokens ∧
      q.state = e.state := by
  have herase := erase_step m p u
  rw [h] at herase
  obtain ⟨e, hemit, htokens, hstate⟩ := exists_emission_of_erase_eq herase
  exact ⟨e, emit_eq_ok_iff.1 hemit, htokens, hstate⟩

end Course

end Infix

/-- A text is converted exactly if its course goes to the end with no bracket open, to the tokens
of the last reading in order. -/
theorem toPostfix_eq_ok_iff_course {text : String} {m : Bindings} {r : Postfix} :
    toPostfix text m = .ok r ↔
      trimmed text ≠ [] ∧ ∃ q,
        (course m {} (PlacedLexeme.ofText (trimmed text)))[
          (PlacedLexeme.ofText (trimmed text)).length]? = some q ∧
        q.openings = [] ∧ r = ⟨q.arrangement.toList⟩ := by
  simp only [getElem?_course_length_eq_some_iff]
  by_cases hempty : trimmed text = []
  · simp [toPostfix, hempty]
  · cases hread : read m {} (PlacedLexeme.ofText (trimmed text)) with
    | error found => simp [toPostfix, hempty, Infix.ofText, hread, bind, Except.bind]
    | ok q =>
        cases hopen : q.openings with
        | nil =>
            have hcomm (x : Postfix) : x = r ↔ r = x := eq_comm
            simp [toPostfix, hempty, Infix.ofText, hread, Progress.finish, hopen, bind, Except.bind,
              ofInfix, Progress.arrangement, hcomm]
        | cons k outer =>
            simp [toPostfix, hempty, Infix.ofText, hread, Progress.finish, hopen, bind, Except.bind]

/-! ## Operators that wait -/

/-- Operators that wait, the latest first, where up to `depth` brackets have been open at once. -/
structure Stacked (depth : Nat) (pending : List Operator) : Prop where
  increasing : pending.reverse.Pairwise fun o o' => o.precedence < o'.precedence
  exists_eq : ∀ o ∈ pending, ∃ level tier,
    level ≤ depth ∧ 1 ≤ tier ∧ tier ≤ 4 ∧ o.precedence = 5 * level + tier
  length_le : pending.length ≤ 4 * (1 + depth)

/-- The place of a precedence among all there are, counted from zero. -/
def precedenceRank (precedence : Nat) : Nat := 4 * (precedence / 5) + precedence % 5 - 1

/-- Operators that outrank each other are no more than there are tiers at the levels they are
priced at. -/
theorem length_le_of_pairwise {depth : Nat} {pending : List Operator}
    (h : pending.Pairwise fun o o' => o'.precedence < o.precedence)
    (hpriced : ∀ o ∈ pending, ∃ level tier,
      level ≤ depth ∧ 1 ≤ tier ∧ tier ≤ 4 ∧ o.precedence = 5 * level + tier) :
    pending.length ≤ 4 * (1 + depth) := by
  have hnodup : (pending.map fun o => precedenceRank o.precedence).Nodup := by
    refine List.pairwise_map.2 (h.imp_of_mem fun {o o'} ho ho' hlt => ?_)
    obtain ⟨level, tier, -, hpos, hle, hprecedence⟩ := hpriced o ho
    obtain ⟨level', tier', -, hpos', hle', hprecedence'⟩ := hpriced o' ho'
    simp only [precedenceRank]
    omega
  have hsubset : (pending.map fun o => precedenceRank o.precedence) ⊆
      List.range (4 * (1 + depth)) := by
    intro rank hrank
    obtain ⟨o, ho, rfl⟩ := List.mem_map.1 hrank
    obtain ⟨level, tier, hlevel, hpos, hle, hprecedence⟩ := hpriced o ho
    rw [List.mem_range, precedenceRank]
    omega
  simpa using hnodup.length_le_of_subset hsubset

/-- Whatever has been read, the operators that wait are stacked, if all are priced inside some of
`depth` brackets. -/
theorem stacked_arrangement {depth : Nat} {p : Progress}
    (h : ∀ o, .operator o ∈ p.tokens.toList →
      ∃ (op : Operation) (level : Nat), level ≤ depth ∧ o = op.priced level) :
    Stacked depth p.arrangement.pending := by
  have hdescending : p.arrangement.Descending :=
    Arrangement.descending_arrange (Arrangement.fits_empty {}).descending _
  have hpriced : ∀ o ∈ p.arrangement.pending, ∃ level tier,
      level ≤ depth ∧ 1 ≤ tier ∧ tier ≤ 4 ∧ o.precedence = 5 * level + tier := by
    intro o ho
    have hread : .operator o ∈ p.tokens.toList :=
      (Arrangement.mem_pending_arrange ho).resolve_left List.not_mem_nil
    obtain ⟨op, level, hle, rfl⟩ := h o hread
    exact ⟨level, op.tier, hle, op.tier_pos, op.tier_le, by
      rw [Operation.priced, Operation.precedenceAt, Operation.nestingStep, Nat.mul_comm]⟩
  exact ⟨List.pairwise_reverse.2 hdescending, hpriced, length_le_of_pairwise hdescending hpriced⟩

namespace Infix

variable {m : Bindings} {p q : Progress} {units : List PlacedLexeme} {i : Nat}

/-- On the way, the product with what comes before has been read, or all of the lexeme has. -/
theorem eq_factor_or_step_of_mem_moments {u : PlacedLexeme} (h : q ∈ moments m p u) :
    q = p.factor ∨ step m p u = .ok q := by
  have hread : q ∈ (step m p u).toOption.toList → step m p u = .ok q := by
    intro hmem
    cases hstep : step m p u with
    | error found => simp [hstep, Except.toOption] at hmem
    | ok q' =>
        obtain rfl : q = q' := by simpa [hstep, Except.toOption] using hmem
        rfl
  unfold moments at h
  split at h
  · exact (List.mem_cons.1 h).imp_right hread
  · exact (List.mem_cons.1 h).imp_right hread
  all_goals exact .inr (hread h)

/-- The operators that a lexeme adds when it is read are priced inside the brackets open before
it. -/
theorem exists_priced_of_step_eq_ok {u : PlacedLexeme} (h : step m p u = .ok q) {o : Operator}
    (ho : .operator o ∈ q.tokens.toList) :
    .operator o ∈ p.tokens.toList ∨ ∃ op : Operation, o = op.priced p.level := by
  obtain ⟨e, hread, htokens, -⟩ := exists_emits_of_step_eq_ok h
  rw [htokens, List.mem_append] at ho
  refine ho.imp_right fun ho => ?_
  obtain ⟨op, -, hop⟩ := hread.exists_priced ho
  exact ⟨op, hop⟩

/-- So are the operators that it adds on the way. -/
theorem exists_priced_of_mem_moments {u : PlacedLexeme} (hq : q ∈ moments m p u) {o : Operator}
    (ho : .operator o ∈ q.tokens.toList) :
    .operator o ∈ p.tokens.toList ∨ ∃ op : Operation, o = op.priced p.level := by
  rcases eq_factor_or_step_of_mem_moments hq with rfl | hstep
  · rw [Progress.toList_factor, List.mem_append] at ho
    exact ho.imp_right fun ho => ⟨_, State.eq_priced_of_mem_product ho⟩
  · exact exists_priced_of_step_eq_ok hstep ho

theorem deepest_append_singleton (readings : List Progress) (p : Progress) :
    deepest (readings ++ [p]) = max (deepest readings) p.level :=
  List.foldl_append

/-- One more reading may be deeper than those before it. -/
theorem deepest_take_succ (h : (course m p units)[i]? = some q) :
    deepest ((course m p units).take (i + 1)) =
      max (deepest ((course m p units).take i)) q.level := by
  rw [List.take_add_one, h]
  exact deepest_append_singleton _ q

/-- Every operator is priced inside some of the brackets that have been open. -/
theorem exists_priced_of_course (h : (course m {} units)[i]? = some q) :
    ∀ o, .operator o ∈ q.tokens.toList → ∃ (op : Operation) (level : Nat),
      level ≤ deepest ((course m {} units).take (i + 1)) ∧ o = op.priced level := by
  refine course_induction (motive := fun i q => ∀ o, .operator o ∈ q.tokens.toList →
    ∃ (op : Operation) (level : Nat),
      level ≤ deepest ((course m {} units).take (i + 1)) ∧ o = op.priced level) ?_ ?_ h
  · intro o ho
    cases ho
  · intro i p u q hp hu hstep ih o ho
    have hq : (course m {} units)[i + 1]? = some q :=
      getElem?_course_succ_eq_some_iff.2 ⟨p, u, hp, hu, hstep⟩
    have hdepth := deepest_take_succ hp
    rw [deepest_take_succ hq]
    rcases exists_priced_of_step_eq_ok hstep ho with hmem | ⟨op, rfl⟩
    · obtain ⟨op, level, hlevel, rfl⟩ := ih o hmem
      exact ⟨op, level, hlevel.trans (Nat.le_max_left _ _), rfl⟩
    · exact ⟨op, p.level, by omega, rfl⟩

end Infix

/-- In every reading of a text, and whenever a lexeme adds an operator to it, the operators that
wait outrank each other from the first to the latest.  Each is priced inside some of the brackets
that have been open so far, so that there are at most four of them for each level reached. -/
theorem stacked_of_course {text : String} {m : Bindings} {i : Nat} {p : Progress}
    (h : (course m {} (PlacedLexeme.ofText (trimmed text)))[i]? = some p) :
    let depth := deepest ((course m {} (PlacedLexeme.ofText (trimmed text))).take (i + 1))
    Stacked depth p.arrangement.pending ∧
      ∀ u, (PlacedLexeme.ofText (trimmed text))[i]? = some u →
        ∀ q ∈ moments m p u, Stacked depth q.arrangement.pending := by
  intro depth
  have hpriced := exists_priced_of_course h
  have hlevel : p.level ≤ depth := (Nat.le_max_right _ _).trans (deepest_take_succ h).ge
  refine ⟨stacked_arrangement hpriced, fun u _ q hq => stacked_arrangement fun o ho => ?_⟩
  rcases exists_priced_of_mem_moments hq ho with hmem | ⟨op, rfl⟩
  · exact hpriced o hmem
  · exact ⟨op, p.level, hlevel, rfl⟩

/-- Operators wait at three levels when the inner bracket has been closed.  An unknown name then adds
one more product, and ends the reading. -/
theorem stacked_of_course_unknown_name :
    let m : Bindings := {}
    let units := PlacedLexeme.ofText (trimmed "1+(2*(3^4) q")
    ∃ p, (course m {} units)[10]? = some p ∧
      p.arrangement.pending.map Operator.precedence = [13, 7, 1] ∧
      Stacked 2 p.arrangement.pending ∧ Stacked 2 p.factor.arrangement.pending := by
  intro m units
  obtain ⟨p, hp⟩ : ∃ p, (course m {} units)[10]? = some p :=
    Option.isSome_iff_exists.1 (by decide +kernel)
  have hpending : (course m {} units)[10]?.map
      (fun p => p.arrangement.pending.map Operator.precedence) = some [13, 7, 1] := by
    decide +kernel
  have hdepth : deepest ((course m {} units).take 11) = 2 := by decide +kernel
  have hname : units[10]? = some ⟨11, .name "q"⟩ := by decide +kernel
  obtain ⟨hstacked, hmoments⟩ := stacked_of_course hp
  rw [hdepth] at hstacked hmoments
  refine ⟨p, hp, by simpa [hp] using hpending, hstacked, hmoments _ hname _ ?_⟩
  simp [moments]

/-! ## Numbers and binary operators -/

/-- Whether an operation takes two operands. -/
def Operation.isBinary : Operation → Bool
  | .binary _ => true
  | .function _ => false

def Token.isNumber : Token → Bool
  | .number _ => true
  | .operator _ => false

def Token.isBinary : Token → Bool
  | .number _ => false
  | .operator o => o.operation.isBinary

/-- The balance of tokens is the number of numbers less the number of binary operators. -/
theorem balance_eq_countP_sub_countP (tokens : List Token) :
    balance tokens = tokens.countP Token.isNumber - tokens.countP Token.isBinary := by
  induction tokens with
  | nil => rfl
  | cons t tokens ih =>
      rw [balance_cons, ih, List.countP_cons, List.countP_cons]
      rcases t with value | ⟨_ | _, precedence⟩ <;>
        simp [Token.balance, Token.isNumber, Token.isBinary, Operation.isBinary] <;> omega

namespace Infix

variable {m : Bindings} {p q : Progress} {units : List PlacedLexeme} {i : Nat}

/-- One more lexeme may close a bracket where no value has been completed. -/
theorem vacantClosings_take_succ {u : PlacedLexeme} (hp : (course m q units)[i]? = some p)
    (hu : units[i]? = some u) :
    vacantClosings (((course m q units).zip units).take (i + 1)) =
      vacantClosings (((course m q units).zip units).take i) +
        vacancies m p.complete [u.lexeme] := by
  have hround : ((course m q units).zip units)[i]? = some (p, u) :=
    List.getElem?_zip_eq_some.2 ⟨hp, hu⟩
  rw [List.take_add_one, hround, vacantClosings, List.countP_append]
  simp [vacantClosings, vacancies, List.countP_cons]

/-- The tokens of every reading add up to whether a value has been completed, less the brackets
closed where none had been. -/
theorem balance_add_vacantClosings (h : (course m {} units)[i]? = some q) :
    balance q.tokens.toList + vacantClosings (((course m {} units).zip units).take i) =
      (q.complete.toNat : Int) := by
  refine course_induction (motive := fun i q => balance q.tokens.toList +
    vacantClosings (((course m {} units).zip units).take i) = (q.complete.toNat : Int)) rfl ?_ h
  intro i p u q hp hu hstep ih
  obtain ⟨e, hread, htokens, hstate⟩ := exists_emits_of_step_eq_ok hstep
  have hemission := hread.balance_eq
  rw [← hstate] at hemission
  rw [htokens, balance_append, vacantClosings_take_succ hp hu]
  simp only [Progress.state] at hemission
  omega

end Infix

/-- In every reading of a text, there are as many more numbers among the settled tokens than binary
operators, settled or waiting, as values have just been completed, which is one or none, less the
brackets closed so far where none had been. -/
theorem balance_of_course {text : String} {m : Bindings} {i : Nat} {p : Progress}
    (h : (course m {} (PlacedLexeme.ofText (trimmed text)))[i]? = some p) :
    let rounds := (course m {} (PlacedLexeme.ofText (trimmed text))).zip
      (PlacedLexeme.ofText (trimmed text))
    (p.arrangement.settled.toList.countP Token.isNumber : Int) -
        (p.arrangement.settled.toList.countP Token.isBinary +
          p.arrangement.pending.countP fun o => o.operation.isBinary) =
      (if p.complete then 1 else 0) - vacantClosings (rounds.take i) := by
  intro rounds
  have hbalance : balance p.arrangement.toList + vacantClosings (rounds.take i) =
      (p.complete.toNat : Int) := by
    rw [Progress.arrangement, balance_perm (Arrangement.perm_arrange {} p.tokens.toList)]
    exact balance_add_vacantClosings h
  have hpending : (p.arrangement.pending.map Token.operator).countP Token.isNumber = 0 := by
    simp [Token.isNumber]
  have hwaiting : (p.arrangement.pending.map Token.operator).countP Token.isBinary =
      p.arrangement.pending.countP fun o => o.operation.isBinary := by
    rw [List.countP_map]
    rfl
  rw [Arrangement.toList, balance_append, balance_eq_countP_sub_countP,
    balance_eq_countP_sub_countP, hpending, hwaiting] at hbalance
  cases hcomplete : p.complete <;> simp [hcomplete] at hbalance ⊢ <;> omega

/-- A pair of brackets with nothing inside passes for a value, which is missing ever after. -/
theorem balance_of_course_vacant :
    let m : Bindings := {}
    let units := PlacedLexeme.ofText (trimmed "()+-(sqrt 2)*(")
    ∃ p, (course m {} units)[9]? = some p ∧ p.complete = false ∧
      vacantClosings (((course m {} units).zip units).take 9) = 1 ∧
      (p.arrangement.settled.toList.countP Token.isNumber : Int) -
        (p.arrangement.settled.toList.countP Token.isBinary +
          p.arrangement.pending.countP fun o => o.operation.isBinary) = 0 - 1 := by
  intro m units
  obtain ⟨p, hp⟩ : ∃ p, (course m {} units)[9]? = some p :=
    Option.isSome_iff_exists.1 (by decide +kernel)
  have hcomplete : (course m {} units)[9]?.map Progress.complete = some false := by decide +kernel
  have hvacant : vacantClosings (((course m {} units).zip units).take 9) = 1 := by decide +kernel
  replace hcomplete : p.complete = false := by simpa [hp] using hcomplete
  refine ⟨p, hp, hcomplete, hvacant, (balance_of_course hp).trans ?_⟩
  rw [hcomplete, hvacant]
  rfl

end Formula
