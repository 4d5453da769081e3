import Formula.Proofs.Diagnosis
import Formula.Proofs.FailFast

/-!
# Formula.Proofs.Spacing

Blanks between the units of a text.

Reading hands offsets on and never looks at them: they come out as the places of open brackets and
of faults.  When lexemes stand elsewhere, then, they are read as before, and those places move along
with them.  Blanks yield no lexeme.  Written where two characters do not join, they move what stands
behind them, and no more: what is at fault in front of them shows there, unless it is a dot that
lacks a digit.

* `read_relocate` — reading lexemes that stand elsewhere;
* `ofText_blank_between` — the tokens of a text with blanks written into it;
* `toPostfix_blanks` — blanks between two characters, and around a text.
-/

namespace Formula

open Infix Lexeme Text

/-! ## Places that move -/

/-- A fault whose place moves as `place` says. -/
def PlacedFault.relocate (place : Nat → Nat) (found : PlacedFault) : PlacedFault :=
  ⟨place found.offset, found.fault⟩

/-- A lexeme whose place moves as `place` says. -/
def PlacedLexeme.relocate (place : Nat → Nat) (u : PlacedLexeme) : PlacedLexeme :=
  ⟨place u.offset, u.lexeme⟩

namespace Infix

namespace Progress

/-- What has been read, with the places of the open brackets moved as `place` says. -/
def relocate (place : Nat → Nat) (p : Progress) : Progress :=
  { p with openings := p.openings.map place }

variable (place : Nat → Nat) (p : Progress)

@[simp] theorem tokens_relocate : (p.relocate place).tokens = p.tokens := rfl

@[simp] theorem openings_relocate : (p.relocate place).openings = p.openings.map place := rfl

@[simp] theorem complete_relocate : (p.relocate place).complete = p.complete := rfl

@[simp] theorem number_relocate (value : Binary32) :
    (p.relocate place).number value = (p.number value).relocate place := rfl

@[simp] theorem operator_relocate (op : Operation) :
    (p.relocate place).operator op = (p.operator op).relocate place := by
  simp [operator, level, relocate]

@[simp] theorem binary_relocate (op : BinaryOp) :
    (p.relocate place).binary op = (p.binary op).relocate place :=
  operator_relocate place p _

@[simp] theorem factor_relocate : (p.relocate place).factor = p.factor.relocate place := by
  simp only [factor, complete_relocate, binary_relocate]
  split <;> rfl

@[simp] theorem opening_relocate (offset : Nat) :
    (p.relocate place).opening (place offset) = (p.opening offset).relocate place := rfl

@[simp] theorem closing_relocate (outer : List Nat) :
    (p.relocate place).closing (outer.map place) = (p.closing outer).relocate place := rfl

/-- Brackets that stay where they are. -/
theorem relocate_eq_self {place : Nat → Nat} {p : Progress} (h : ∀ k ∈ p.openings, place k = k) :
    p.relocate place = p := by
  have hopenings : p.openings.map place = p.openings :=
    (List.map_congr_left h).trans (List.map_id p.openings)
  rw [relocate, hopenings]

end Progress

/-- What becomes of a reading when places move as `place` says. -/
def relocated (place : Nat → Nat) (outcome : Except PlacedFault Progress) :
    Except PlacedFault Progress :=
  (outcome.map (.relocate place)).mapError (.relocate place)

@[simp] theorem relocated_ok (place : Nat → Nat) (p : Progress) :
    relocated place (.ok p) = .ok (p.relocate place) := rfl

@[simp] theorem relocated_error (place : Nat → Nat) (found : PlacedFault) :
    relocated place (.error found) = .error (found.relocate place) := rfl

variable {m : Bindings} {place : Nat → Nat}

/-- A lexeme is read at one place as at another, if its characters move together. -/
theorem step_relocate (p : Progress) {u : PlacedLexeme}
    (hu : ∀ j, place (u.offset + j) = place u.offset + j) :
    step m (p.relocate place) (u.relocate place) = relocated place (step m p u) := by
  obtain ⟨offset, lexeme⟩ := u
  cases lexeme with
  | literal run =>
      cases hc : p.complete with
      | true => simp [step, PlacedLexeme.relocate, PlacedFault.relocate, hc]
      | false =>
          cases hread : Literal.read run <;>
            simp_all [step, PlacedLexeme.relocate, PlacedFault.relocate]
  | name letters =>
      cases hvalue : m[letters]? with
      | some value => simp [step, PlacedLexeme.relocate, hvalue]
      | none =>
          cases hname : Builtin.ofName? letters <;>
            simp [step, PlacedLexeme.relocate, PlacedFault.relocate, hvalue, hname]
  | operator op =>
      cases hc : p.complete <;> cases hsign : op.isSign <;>
        simp [step, PlacedLexeme.relocate, PlacedFault.relocate, hc, hsign]
  | opening => simp [step, PlacedLexeme.relocate]
  | closing =>
      cases hopen : p.openings <;>
        simp [step, PlacedLexeme.relocate, PlacedFault.relocate, hopen]
  | stray c => rfl

/-- Lexemes are read at one place as at another, if the characters of each move together. -/
theorem read_relocate (p : Progress) {units : List PlacedLexeme}
    (hunits : ∀ u ∈ units, ∀ j, place (u.offset + j) = place u.offset + j) :
    read m (p.relocate place) (units.map (.relocate place)) = relocated place (read m p units) := by
  induction units generalizing p with
  | nil => rfl
  | cons u units ih =>
      rw [List.forall_mem_cons] at hunits
      rw [List.map_cons, read_cons, read_cons, step_relocate p hunits.1]
      cases step m p u with
      | error found => rfl
      | ok q => exact ih q hunits.2

theorem finish_relocate (p : Progress) :
    (p.relocate place).finish = p.finish.mapError (.relocate place) := by
  cases hopen : p.openings <;>
    simp [Progress.finish, hopen, PlacedFault.relocate, Except.mapError]

end Infix

/-! ## Blanks in a text -/

/-- Where a character comes to stand when `n` more are written in front of offset `a`. -/
def pushed (a n k : Nat) : Nat := if k < a then k else k + n

theorem pushed_of_lt {a n k : Nat} (h : k < a) : pushed a n k = k := if_pos h

theorem pushed_add (a n k : Nat) : pushed a n (a + k) = a + k + n := if_neg (by omega)

/-- The characters of a lexeme that stands behind offset `a` move together. -/
theorem pushed_offset_add (text : List Char) (a n : Nat) :
    ∀ u ∈ (PlacedLexeme.ofText text).map (PlacedLexeme.shift a), ∀ j,
      pushed a n (u.offset + j) = pushed a n u.offset + j := by
  intro u hu j
  obtain ⟨w, -, rfl⟩ := List.mem_map.1 hu
  rw [PlacedLexeme.offset_shift, Nat.add_assoc, pushed_add, pushed_add]
  omega

/-- Blanks have no lexemes. -/
theorem PlacedLexeme.ofText_eq_nil_of_isBlank {blanks : List Char} (h : ∀ c ∈ blanks, isBlank c) :
    ofText blanks = [] := by
  have hnil := Lexeme.ofText_eq_nil_of_isBlank h
  rw [← map_lexeme_ofText] at hnil
  exact List.map_eq_nil_iff.1 hnil

/-- Blanks join neither what stands before nor what stands behind them. -/
theorem Lexeme.Apart.blank_between {first second blanks : List Char} (h : Apart first second)
    (hblanks : ∀ c ∈ blanks, isBlank c) : Apart first (blanks ++ second) ∧ Apart blanks second := by
  cases blanks with
  | nil => exact ⟨h, apart_nil_left second⟩
  | cons b blanks =>
      refine ⟨fun c _ d hd => ?_, fun c hc d _ => ?_⟩
      · obtain rfl : b = d := Option.some.inj hd
        exact joins_eq_false_of_isLone_right (isLone_of_isBlank (hblanks b List.mem_cons_self)) c
      · exact joins_eq_false_of_isLone_left
          (isLone_of_isBlank (hblanks c (List.mem_of_mem_getLast? hc))) d

namespace Infix

variable {m : Bindings} {first second blanks : List Char}

/-- A text that does not end in a dot shows its fault before its end. -/
theorem offset_lt_of_read_eq_error {text : List Char} {found : PlacedFault}
    (h : read m {} (PlacedLexeme.ofText text) = .error found) (hdot : '.' ∉ text.getLast?) :
    found.offset < text.length := by
  obtain ⟨before, behind, rfl, hoffset, hshows⟩ :=
    exists_showsAt_of_ofText_eq_error (Infix.ofText_eq_error_iff.2 (.inl h))
  cases behind with
  | nil =>
      obtain ⟨front, digits, hsplit, -⟩ := hshows.endsInDot
      simp [hsplit] at hdot
  | cons c behind =>
      rw [hoffset, List.length_append, List.length_cons]
      omega

/-- Brackets that a text leaves open stand in it. -/
theorem lt_length_of_mem_openings {text : List Char} {q : Progress}
    (h : read m {} (PlacedLexeme.ofText text) = .ok q) {k : Nat} (hk : k ∈ q.openings) :
    k < text.length := by
  obtain ⟨before, behind, rfl, rfl⟩ := exists_eq_append_opening h hk
  rw [List.length_append, List.length_cons]
  omega

/-- Blanks written between two parts of a text move the lexemes of the second. -/
theorem ofText_append_blank_append (hapart : Apart first second)
    (hblanks : ∀ c ∈ blanks, isBlank c) :
    PlacedLexeme.ofText (first ++ (blanks ++ second)) = PlacedLexeme.ofText first ++
      ((PlacedLexeme.ofText second).map (.shift first.length)).map
        (.relocate (pushed first.length blanks.length)) := by
  obtain ⟨hfirst, hsecond⟩ := hapart.blank_between hblanks
  have hmove (u : PlacedLexeme) : (u.shift blanks.length).shift first.length =
      (u.shift first.length).relocate (pushed first.length blanks.length) := by
    rw [PlacedLexeme.relocate, PlacedLexeme.offset_shift, pushed_add, PlacedLexeme.shift_shift,
      Nat.add_right_comm]
    rfl
  rw [PlacedLexeme.ofText_append hfirst, PlacedLexeme.ofText_append hsecond,
    PlacedLexeme.ofText_eq_nil_of_isBlank hblanks, List.nil_append, List.map_map, List.map_map]
  exact congrArg _ (List.map_congr_left fun u _ => hmove u)

/-- Blanks written into a text between two characters that do not join, the first of them no dot,
leave the tokens as they are, and move the faults behind them. -/
theorem ofText_blank_between (hapart : Apart first second) (hdot : '.' ∉ first.getLast?)
    (hblanks : ∀ c ∈ blanks, isBlank c) :
    Infix.ofText m (first ++ (blanks ++ second)) =
      (Infix.ofText m (first ++ second)).mapError
        (.relocate (pushed first.length blanks.length)) := by
  rw [Infix.ofText, Infix.ofText, ofText_append_blank_append hapart hblanks,
    PlacedLexeme.ofText_append hapart, read_append, read_append]
  -- The part in front is read as it was; its fault, or the brackets it leaves open, stay in place.
  cases hfirst : read m {} (PlacedLexeme.ofText first) with
  | error found =>
      have hplace : found.relocate (pushed first.length blanks.length) = found := by
        rw [PlacedFault.relocate, pushed_of_lt (offset_lt_of_read_eq_error hfirst hdot)]
      simp [bind, Except.bind, Except.mapError, hplace]
  | ok q =>
      have hq : q.relocate (pushed first.length blanks.length) = q :=
        Progress.relocate_eq_self fun k hk => pushed_of_lt (lt_length_of_mem_openings hfirst hk)
      have hread := read_relocate (m := m) q (pushed_offset_add second first.length blanks.length)
      rw [hq] at hread
      show read m q _ >>= _ = (read m q _ >>= _).mapError _
      rw [hread]
      cases read m q ((PlacedLexeme.ofText second).map (.shift first.length)) with
      | error found => rfl
      | ok q' => exact finish_relocate q'

end Infix

/-! ## Whole texts -/

/-- A failure of a text that reads `input` once `n` characters are written into it, in front of
offset `a`. -/
def Failure.respaced (input : String) (a n : Nat) (failure : Failure) : Failure :=
  ⟨failure.fault, failure.location.map fun place => ⟨input, pushed a n place.offset⟩⟩

/-- Neighbouring characters that blanks can part: not two letters, not two digits, and no dot. -/
def Separable (c d : Char) : Prop :=
  ¬(c.isAlpha ∧ d.isAlpha) ∧ ¬(c.isDigit ∧ d.isDigit) ∧ c ≠ '.' ∧ d ≠ '.'

instance (c d : Char) : Decidable (Separable c d) :=
  inferInstanceAs (Decidable
    (¬(c.isAlpha ∧ d.isAlpha) ∧ ¬(c.isDigit ∧ d.isDigit) ∧ c ≠ '.' ∧ d ≠ '.'))

/-- Characters that blanks can part do not join. -/
theorem Separable.joins_eq_false {c d : Char} (h : Separable c d) : joins c d = false := by
  obtain ⟨halpha, hdigit, hc, hd⟩ := h
  simp only [not_and, Bool.not_eq_true] at halpha hdigit
  simp only [joins, isNumeric, Bool.or_eq_false_iff, Bool.and_eq_false_imp, Bool.or_eq_true,
    beq_iff_eq, hc, hd, or_false, beq_eq_false_iff_ne, ne_eq, not_false_eq_true, and_true]
  exact ⟨halpha, hdigit⟩

variable {m : Bindings}

/-- A text that is trimmed stays so when anything is written into it. -/
theorem trimmed_append_append {first second : String} (hfirst : first ≠ "") (hsecond : second ≠ "")
    (h : trimmed (first ++ second) = (first ++ second).toList) (between : String) :
    trimmed (first ++ between ++ second) = first.toList ++ (between.toList ++ second.toList) := by
  have hfirst : first.toList ≠ [] := mt String.toList_eq_nil_iff.1 hfirst
  have hsecond : second.toList ≠ [] := mt String.toList_eq_nil_iff.1 hsecond
  rw [trimmed, String.toList_append] at h
  have htight : IsTight (first.toList ++ second.toList) := by
    have htrim : trim (first.toList ++ second.toList) ≠ [] := by
      rw [h]
      exact List.append_ne_nil_of_left_ne_nil hfirst _
    exact h ▸ isTight_trim htrim
  rw [trimmed, String.toList_append, String.toList_append, List.append_assoc]
  exact (htight.insert hfirst hsecond _).trim_eq

/-- Blanks around a text change nothing. -/
theorem trimmed_blank_append_append {lead trail : String} (hlead : ∀ c ∈ lead.toList, isBlank c)
    (htrail : ∀ c ∈ trail.toList, isBlank c) (text : String) :
    trimmed (lead ++ text ++ trail) = trimmed text := by
  rw [trimmed, String.toList_append, String.toList_append,
    trim_append_blank (List.all_eq_true.2 htrail), trim_blank_append (List.all_eq_true.2 hlead),
    trimmed]

/-- Blanks written into a trimmed text, between two characters that they can part, leave its
postfix order as it is and move the places of faults behind them. -/
theorem toPostfix_blanks_between {first second blanks : String} (hfirst : first ≠ "")
    (hsecond : second ≠ "") (htrim : trimmed (first ++ second) = (first ++ second).toList)
    (hparts : ∀ c ∈ first.toList.getLast?, ∀ d ∈ second.toList.head?, Separable c d)
    (hblanks : ∀ c ∈ blanks.toList, isBlank c) :
    toPostfix (first ++ blanks ++ second) m =
      (toPostfix (first ++ second) m).mapError
        (.respaced (first ++ blanks ++ second) first.length blanks.length) := by
  have hspaced := trimmed_append_append hfirst hsecond htrim blanks
  have hne : first.toList ≠ [] := mt String.toList_eq_nil_iff.1 hfirst
  have hapart : Apart first.toList second.toList :=
    fun c hc d hd => (hparts c hc d hd).joins_eq_false
  have hdot : '.' ∉ first.toList.getLast? := by
    intro hmem
    obtain ⟨d, hd⟩ : ∃ d, d ∈ second.toList.head? :=
      ⟨_, List.head?_eq_some_head (mt String.toList_eq_nil_iff.1 hsecond)⟩
    exact (hparts _ hmem d hd).2.2.1 rfl
  have htokens := ofText_blank_between (m := m) hapart hdot hblanks
  have hinput : String.ofList (first.toList ++ (blanks.toList ++ second.toList)) =
      first ++ blanks ++ second := by
    rw [← String.toList_append, ← String.toList_append, String.ofList_toList, String.append_assoc]
  rw [String.length_toList, String.length_toList] at htokens
  rw [toPostfix, toPostfix, hspaced, htrim, String.toList_append, htokens, hinput]
  cases Infix.ofText m (first.toList ++ second.toList) with
  | ok formula => simp [hne, Except.mapError]
  | error found =>
      simp [hne, Except.mapError, PlacedFault.failure, PlacedFault.relocate, Failure.respaced]

/-- Blanks are irrelevant.  Between two characters that they can part they only move the places of
faults behind them, and around a text not even that. -/
theorem toPostfix_blanks (m : Bindings) :
    (∀ first second blanks : String, first ≠ "" → second ≠ "" →
      trimmed (first ++ second) = (first ++ second).toList →
      (∀ c ∈ first.toList.getLast?, ∀ d ∈ second.toList.head?, Separable c d) →
      (∀ c ∈ blanks.toList, isBlank c) →
        toPostfix (first ++ blanks ++ second) m =
          (toPostfix (first ++ second) m).mapError
            (.respaced (first ++ blanks ++ second) first.length blanks.length)) ∧
    ∀ lead text trail : String, (∀ c ∈ lead.toList, isBlank c) → (∀ c ∈ trail.toList, isBlank c) →
      toPostfix (lead ++ text ++ trail) m = toPostfix text m ∧
        evaluate (lead ++ text ++ trail) m = evaluate text m := by
  refine ⟨fun first second blanks => toPostfix_blanks_between, ?_⟩
  intro lead text trail hlead htrail
  have hconvert : toPostfix (lead ++ text ++ trail) m = toPostfix text m := by
    rw [toPostfix, toPostfix, trimmed_blank_append_append hlead htrail]
  exact ⟨hconvert, by rw [evaluate_eq_bind, evaluate_eq_bind, hconvert]⟩

/-- A line break and a no-break space, in front of a digit that is not expected and behind a bracket
that is never closed. -/
theorem toPostfix_blanks_digit :
    let m : Bindings := {}
    let blanks := "\n\u00a0"
    (∀ c ∈ blanks.toList, isBlank c) ∧
      toPostfix ("(2+" ++ "3 4)") m = .error ⟨.adjacentDigit, some ⟨"(2+3 4)", 5⟩⟩ ∧
      toPostfix ("(2+" ++ blanks ++ "3 4)") m =
        .error ⟨.adjacentDigit, some ⟨"(2+\n\u00a03 4)", 7⟩⟩ ∧
      toPostfix ("(2" ++ blanks ++ "+3") m = .error ⟨.unmatchedBracket, some ⟨"(2\n\u00a0+3", 0⟩⟩ ∧
      evaluate (blanks ++ "2+3" ++ blanks) m = .ok 5 := by
  intro m blanks
  have hblanks : ∀ c ∈ blanks.toList, isBlank c := List.all_eq_true.1 (by decide +kernel)
  have hdigit : toPostfix ("(2+" ++ "3 4)") m = .error ⟨.adjacentDigit, some ⟨"(2+3 4)", 5⟩⟩ := by
    decide +kernel
  have hbracket : toPostfix ("(2" ++ "+3") m = .error ⟨.unmatchedBracket, some ⟨"(2+3", 0⟩⟩ := by
    decide +kernel
  have hsum : evaluate "2+3" m = .ok 5 := by decide +kernel
  have hbehind : ∀ c ∈ "(2+".toList.getLast?, ∀ d ∈ "3 4)".toList.head?, Separable c d := by
    intro c hc d hd
    obtain rfl : '+' = c := Option.some.inj hc
    obtain rfl : '3' = d := Option.some.inj hd
    decide
  have hbefore : ∀ c ∈ "(2".toList.getLast?, ∀ d ∈ "+3".toList.head?, Separable c d := by
    intro c hc d hd
    obtain rfl : '2' = c := Option.some.inj hc
    obtain rfl : '+' = d := Option.some.inj hd
    decide
  obtain ⟨hbetween, haround⟩ := toPostfix_blanks m
  refine ⟨hblanks, hdigit, ?_, ?_, ?_⟩
  · rw [hbetween "(2+" "3 4)" blanks (by decide) (by decide) (by decide) hbehind hblanks, hdigit]
    decide +kernel
  · rw [hbetween "(2" "+3" blanks (by decide) (by decide) (by decide) hbefore hblanks, hbracket]
    decide +kernel
  · rw [(haround blanks "2+3" blanks hblanks hblanks).2, hsum]

end Formula
