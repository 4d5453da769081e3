import Formula.Proofs.Acceptance
import Formula.Proofs.Places

/-!
# Formula.Proofs.Faults

The ways in which reading a text fails, and the places it fails at.

Reading fails at a lexeme, in the state that the lexemes before it leave.  `Faults` lists what may
be wrong with a text that is read on from a state, one rule for each fault, and says where in the
text the fault is found.  A rule looks at the characters up to that place and at no more than one
behind it:

* `Literal.read_eq_error_iff` — the literals that cannot be read;
* `read_ofText_eq_error_iff` — reading a text fails exactly if it can be cut into a part that is
  read and a part that one of the rules fits.
-/

namespace Formula

open Infix Lexeme

/-! ## Places of faults -/

/-- A fault with `n` more characters in front of its place. -/
def PlacedFault.shift (n : Nat) (found : PlacedFault) : PlacedFault :=
  ⟨n + found.offset, found.fault⟩

@[simp] theorem PlacedFault.offset_shift (n : Nat) (found : PlacedFault) :
    (found.shift n).offset = n + found.offset := rfl

@[simp] theorem PlacedFault.fault_shift (n : Nat) (found : PlacedFault) :
    (found.shift n).fault = found.fault := rfl

@[simp] theorem PlacedFault.shift_zero (n : Nat) (fault : Fault) :
    PlacedFault.shift n ⟨0, fault⟩ = ⟨n, fault⟩ := rfl

/-! ## Literals -/

/-- What is wrong with a literal at the start of a text: no digit behind its dot, or a second dot
behind its decimal places. -/
inductive Literal.Malformed : List Char → PlacedFault → Prop
  | missingFraction {digits rest : List Char} :
      digits ≠ [] → (∀ c ∈ digits, c.isDigit) → (∀ c ∈ rest.head?, c.isDigit = false) →
        Malformed (digits ++ '.' :: rest) ⟨digits.length + 1, .missingFraction⟩
  | secondDot {digits places rest : List Char} :
      digits ≠ [] → (∀ c ∈ digits, c.isDigit) → places ≠ [] → (∀ c ∈ places, c.isDigit) →
        Malformed (digits ++ '.' :: (places ++ '.' :: rest))
          ⟨digits.length + 1 + places.length, .secondDot⟩

namespace Literal

/-- A malformed literal is not read, for what is wrong with it. -/
theorem read_eq_error_of_malformed {run : List Char} {found : PlacedFault}
    (h : Malformed run found) : read run = .error found := by
  cases h with
  | missingFraction _ hdigits hrest =>
      rw [read_append_dot hdigits, if_pos (takeWhile_eq_nil hrest)]
  | @secondDot digits places rest _ hdigits hne hplaces =>
      have htake : (places ++ '.' :: rest).takeWhile Char.isDigit = places := by
        rw [List.takeWhile_append_of_pos hplaces]
        simp
      have hlength : places.length < (places ++ '.' :: rest).length := by simp
      rw [read_append_dot hdigits, htake, if_neg hne, if_pos hlength]

/-- Of the runs that start as a literal does and hold digits and dots, only the malformed ones are
not read. -/
theorem malformed_of_read_eq_error {run : List Char} {found : PlacedFault}
    (hunit : (Lexeme.literal run).IsUnit) (h : read run = .error found) : Malformed run found := by
  obtain ⟨digits, hne, hdigits, rfl | ⟨rest, rfl, hrest⟩⟩ := exists_digits_of_isUnit hunit
  · rw [read_eq_whole hdigits] at h
    contradiction
  · have hsplit : rest.takeWhile Char.isDigit ++ rest.dropWhile Char.isDigit = rest :=
      List.takeWhile_append_dropWhile
    have hhead := List.head?_dropWhile_not Char.isDigit rest
    rw [read_append_dot hdigits] at h
    split at h
    · next hempty =>
      rw [hempty, List.nil_append] at hsplit
      rw [hsplit] at hhead
      obtain rfl := Except.error.inj h
      refine .missingFraction hne hdigits fun c hc => ?_
      rw [hc] at hhead
      exact hhead
    split at h
    · next hplaces hlength =>
      obtain rfl := Except.error.inj h
      cases hdrop : rest.dropWhile Char.isDigit with
      | nil =>
          rw [hdrop, List.append_nil] at hsplit
          rw [hsplit] at hlength
          exact absurd hlength (Nat.lt_irrefl _)
      | cons d behind =>
          rw [hdrop] at hsplit hhead
          have hd : isNumeric d := hrest d (hsplit ▸ by simp)
          obtain rfl : d = '.' := by
            simpa [isNumeric, show d.isDigit = false from hhead] using hd
          have hall : ∀ c ∈ rest.takeWhile Char.isDigit, c.isDigit :=
            List.all_eq_true.1 List.all_takeWhile
          rw [← hsplit, List.takeWhile_append_of_pos hall, List.takeWhile_cons_of_neg (by decide),
            List.append_nil]
          exact .secondDot hne hdigits hplaces hall
    · cases h

namespace Malformed

variable {text : List Char} {found : PlacedFault}

/-- A malformed literal opens with a digit. -/
theorem head_isDigit (h : Malformed text found) : ∃ c rest, text = c :: rest ∧ c.isDigit := by
  cases h with
  | missingFraction hne hdigits _ =>
      obtain ⟨c, digits, rfl⟩ := List.exists_cons_of_ne_nil hne
      exact ⟨c, _, rfl, hdigits c List.mem_cons_self⟩
  | secondDot hne hdigits _ _ =>
      obtain ⟨c, digits, rfl⟩ := List.exists_cons_of_ne_nil hne
      exact ⟨c, _, rfl, hdigits c List.mem_cons_self⟩

/-- A malformed literal stays so if what follows is no part of it. -/
theorem append (h : Malformed text found) {behind : List Char}
    (hbehind : ∀ c ∈ behind.head?, c.isDigit = false) : Malformed (text ++ behind) found := by
  cases h with
  | @missingFraction digits rest hne hdigits hrest =>
      rw [List.append_assoc, List.cons_append]
      refine .missingFraction hne hdigits ?_
      cases rest with
      | nil => exact hbehind
      | cons c rest => exact hrest
  | secondDot hne hdigits hplaces hall =>
      rw [List.append_assoc, List.cons_append, List.append_assoc, List.cons_append]
      exact .secondDot hne hdigits hplaces hall

/-- Its digits and dots are all that is wrong with a malformed literal. -/
theorem takeWhile_isNumeric (h : Malformed text found) :
    Malformed (text.takeWhile isNumeric) found := by
  have hdot : isNumeric '.' := by decide
  cases h with
  | @missingFraction digits rest hne hdigits hrest =>
      rw [List.takeWhile_append_of_pos fun c hc => isNumeric_of_isDigit (hdigits c hc),
        List.takeWhile_cons_of_pos hdot]
      refine .missingFraction hne hdigits fun c hc => hrest c ?_
      cases rest with
      | nil => exact hc
      | cons d rest =>
          by_cases hd : isNumeric d
          · rwa [List.takeWhile_cons_of_pos hd] at hc
          · rw [List.takeWhile_cons_of_neg hd] at hc
            cases hc
  | secondDot hne hdigits hplaces hall =>
      rw [List.takeWhile_append_of_pos fun c hc => isNumeric_of_isDigit (hdigits c hc),
        List.takeWhile_cons_of_pos hdot,
        List.takeWhile_append_of_pos fun c hc => isNumeric_of_isDigit (hall c hc),
        List.takeWhile_cons_of_pos hdot]
      exact .secondDot hne hdigits hplaces hall

end Malformed

/-- The run of a literal cannot be read exactly if a malformed literal starts with it. -/
theorem read_eq_error_iff {before rest behind : List Char} {c : Char} {found : PlacedFault}
    (hrun : IsRun before c rest behind) (hc : c.isDigit) :
    read (c :: rest) = .error found ↔ Malformed (c :: rest ++ behind) found := by
  have hnumeric := isNumeric_of_isDigit hc
  constructor
  · intro h
    have hall := hrun.forall_mem (fun _ _ => joins_eq_isNumeric) hnumeric
    have hunit : (Lexeme.literal (c :: rest)).IsUnit :=
      ⟨c, rest, rfl, hc, fun d hd => hall d (List.mem_cons_of_mem c hd)⟩
    refine (malformed_of_read_eq_error hunit h).append fun d hd => ?_
    have hbehind := hrun.head?_behind (fun _ _ => joins_eq_isNumeric) hnumeric d hd
    rw [isNumeric, Bool.or_eq_false_iff] at hbehind
    exact hbehind.1
  · intro h
    have hprefix := h.takeWhile_isNumeric
    rw [hrun.takeWhile_eq (fun _ _ => joins_eq_isNumeric) hnumeric] at hprefix
    exact read_eq_error_of_malformed hprefix

end Literal

/-! ## First characters -/

namespace Lexeme

/-- A character that starts no lexeme: no blank, digit or letter, no operator and no bracket. -/
structure IsStray (c : Char) : Prop where
  not_blank : Text.isBlank c = false
  not_digit : c.isDigit = false
  not_alpha : c.isAlpha = false
  not_operator : BinaryOp.ofSymbol? c = none
  not_opening : c ≠ '('
  not_closing : c ≠ ')'

variable {c : Char} {rest : List Char}

theorem ofRun?_of_isStray (h : IsStray c) : ofRun? c rest = some (.stray c) := by
  simp [ofRun?, h.not_blank, h.not_digit, h.not_alpha, h.not_operator, h.not_opening,
    h.not_closing]

/-- Only characters that start no lexeme are stray. -/
theorem isStray_of_ofRun?_eq_stray {d : Char} (h : ofRun? c rest = some (.stray d)) :
    d = c ∧ IsStray c := by
  unfold ofRun? at h
  split at h
  · cases h
  split at h
  · cases h
  split at h
  · cases h
  split at h
  · cases h
  split at h
  · cases h
  split at h
  · cases h
  · cases h
    exact ⟨rfl, by simp_all, by simp_all, by simp_all, by assumption, by assumption, by assumption⟩

theorem ofRun?_of_isDigit (h : c.isDigit) : ofRun? c rest = some (.literal (c :: rest)) := by
  simp [ofRun?, isBlank_eq_false_of_isDigit h, h]

theorem ofRun?_of_isAlpha (h : c.isAlpha) :
    ofRun? c rest = some (.name (String.ofList (c :: rest))) := by
  simp [ofRun?, isBlank_eq_false_of_isAlpha h, isDigit_eq_false_of_isAlpha h, h]

theorem ofRun?_symbol (op : BinaryOp) : ofRun? op.symbol rest = some (.operator op) := by
  have hlone := isLone_symbol op
  have hdigit : op.symbol.isDigit = false := by cases op <;> decide
  have hblank : Text.isBlank op.symbol = false := by cases op <;> decide
  simp [ofRun?, hblank, hdigit, hlone.1]

end Lexeme

/-! ## Faults of a reading -/

namespace Infix

variable {m : Bindings}

/-- The ways in which a text that is read on from a state fails at its start, with the place of the
fault counted from there. -/
inductive Faults (m : Bindings) : State → List Char → PlacedFault → Prop
  | strayCharacter {s : State} {c : Char} {behind : List Char} :
      IsStray c → Faults m s (c :: behind) ⟨0, .strayCharacter c⟩
  | adjacentDigit {level : Nat} {c : Char} {behind : List Char} :
      c.isDigit → Faults m ⟨level, true⟩ (c :: behind) ⟨0, .adjacentDigit⟩
  | malformed {level : Nat} {text : List Char} {found : PlacedFault} :
      Literal.Malformed text found → Faults m ⟨level, false⟩ text found
  | missingOperand {level : Nat} {op : BinaryOp} {behind : List Char} :
      op.isSign = false → Faults m ⟨level, false⟩ (op.symbol :: behind) ⟨0, .missingOperand op⟩
  | unmatchedBracket {complete : Bool} {behind : List Char} :
      Faults m ⟨0, complete⟩ (')' :: behind) ⟨0, .unmatchedBracket⟩
  | unknownFunction {s : State} {letters : String} {behind : List Char} :
      IsLetterRun [] letters behind → m[letters]? = none → Builtin.ofName? letters = none →
        Faults m s (letters.toList ++ behind) ⟨0, .unknownFunction letters⟩

/-- A lexeme that is not read is at fault in one of these ways. -/
theorem faults_of_step_eq_error {p : Progress} {u : PlacedLexeme} {found : PlacedFault}
    (h : step m p u = .error found) {before rest behind : List Char} {c : Char}
    (hrun : IsRun before c rest behind) (hu : Lexeme.ofRun? c rest = some u.lexeme) :
    ∃ fault, Faults m p.state (c :: rest ++ behind) fault ∧ found = fault.shift u.offset := by
  obtain ⟨tokens, openings, complete⟩ := p
  obtain ⟨offset, lexeme⟩ := u
  have hspelling := hrun.spelling_eq hu
  cases lexeme with
  | literal run =>
      obtain ⟨hspell, hunit⟩ := hspelling (by simp)
      obtain rfl : run = c :: rest := hspell
      have hc : c.isDigit := by
        obtain ⟨d, tail, htail, hd, -⟩ := hunit
        exact (List.cons.inj htail).1 ▸ hd
      cases complete with
      | true =>
          obtain rfl : ⟨offset, .adjacentDigit⟩ = found := Except.error.inj h
          exact ⟨_, Faults.adjacentDigit hc, rfl⟩
      | false =>
          cases hread : Literal.read (c :: rest) with
          | ok value => simp [step, hread] at h
          | error fault =>
              obtain rfl : fault.shift offset = found := by
                simpa [step, hread, PlacedFault.shift] using h
              exact ⟨fault, Faults.malformed ((Literal.read_eq_error_iff hrun hc).1 hread), rfl⟩
  | name letters =>
      obtain ⟨hletters, hmaximal⟩ := isLetterRun_of_isRun hrun hu
      rw [← hletters]
      cases hvalue : m[letters]? with
      | some value => simp [step, hvalue] at h
      | none =>
          cases hname : Builtin.ofName? letters with
          | some f => simp [step, hvalue, hname] at h
          | none =>
              obtain rfl : ⟨offset, .unknownFunction letters⟩ = found := by
                simpa [step, hvalue, hname] using h
              have hstart : IsLetterRun [] letters behind :=
                { hmaximal with not_before := by simp }
              exact ⟨_, Faults.unknownFunction hstart hvalue hname, rfl⟩
  | operator op =>
      obtain ⟨hspell, -⟩ := hspelling (by simp)
      obtain ⟨rfl, rfl⟩ : op.symbol = c ∧ [] = rest := by simpa [spelling] using hspell
      cases complete with
      | true => cases h
      | false =>
          cases hsign : op.isSign with
          | true => simp [step, hsign] at h
          | false =>
              obtain rfl : ⟨offset, .missingOperand op⟩ = found := by simpa [step, hsign] using h
              exact ⟨_, Faults.missingOperand hsign, rfl⟩
  | opening => cases h
  | closing =>
      obtain ⟨hspell, -⟩ := hspelling (by simp)
      obtain ⟨rfl, rfl⟩ : ')' = c ∧ [] = rest := by simpa [spelling] using hspell
      cases openings with
      | cons k outer => cases h
      | nil =>
          obtain rfl : ⟨offset, .unmatchedBracket⟩ = found := Except.error.inj h
          exact ⟨_, Faults.unmatchedBracket, rfl⟩
  | stray d =>
      obtain ⟨rfl, hstray⟩ := isStray_of_ofRun?_eq_stray hu
      obtain rfl : ⟨offset, .strayCharacter d⟩ = found := Except.error.inj h
      exact ⟨_, Faults.strayCharacter hstray, rfl⟩

/-- The first lexeme of a text that does not start with a blank is that of its first run. -/
theorem exists_ofText_cons_eq (c : Char) (text : List Char) :
    ∃ rest behind, text = rest ++ behind ∧ IsRun [] c rest behind ∧
      ∀ lexeme, Lexeme.ofRun? c rest = some lexeme →
        ∃ more, PlacedLexeme.ofText (c :: text) = ⟨0, lexeme⟩ :: more := by
  obtain ⟨rest, behind, rfl, hrun⟩ := exists_isRun_cons c text
  refine ⟨rest, behind, rfl, hrun, fun lexeme hlexeme => ?_⟩
  rw [← List.cons_append, PlacedLexeme.ofText_run hrun, hlexeme]
  exact ⟨_, rfl⟩

/-- A text at fault in one of these ways opens with a lexeme that is not read. -/
theorem exists_step_eq_error_of_faults {p : Progress} {text : List Char} {fault : PlacedFault}
    (h : Faults m p.state text fault) :
    ∃ lexeme more, PlacedLexeme.ofText text = ⟨0, lexeme⟩ :: more ∧
      ∀ n, step m p ⟨n, lexeme⟩ = .error (fault.shift n) := by
  obtain ⟨tokens, openings, complete⟩ := p
  generalize hs : Progress.state _ = s at h
  cases h with
  | @strayCharacter _ c behind hstray =>
      obtain ⟨rest, -, -, -, hfirst⟩ := exists_ofText_cons_eq c behind
      obtain ⟨more, hmore⟩ := hfirst _ (ofRun?_of_isStray hstray)
      exact ⟨_, more, hmore, fun n => rfl⟩
  | @adjacentDigit level c behind hc =>
      obtain ⟨rest, -, -, -, hfirst⟩ := exists_ofText_cons_eq c behind
      obtain ⟨more, hmore⟩ := hfirst _ (ofRun?_of_isDigit hc)
      obtain ⟨-, rfl⟩ := State.mk.inj hs
      exact ⟨_, more, hmore, fun n => rfl⟩
  | @malformed level _ _ hmalformed =>
      obtain ⟨c, tail, rfl, hc⟩ := hmalformed.head_isDigit
      obtain ⟨rest, behind, rfl, hrun, hfirst⟩ := exists_ofText_cons_eq c tail
      obtain ⟨more, hmore⟩ := hfirst _ (ofRun?_of_isDigit hc)
      obtain ⟨-, rfl⟩ := State.mk.inj hs
      have hread := (Literal.read_eq_error_iff hrun hc).2 hmalformed
      exact ⟨_, more, hmore, fun n => by simp [step, hread, PlacedFault.shift]⟩
  | @missingOperand level op behind hsign =>
      obtain ⟨rest, -, -, -, hfirst⟩ := exists_ofText_cons_eq op.symbol behind
      obtain ⟨more, hmore⟩ := hfirst _ (ofRun?_symbol op)
      obtain ⟨-, rfl⟩ := State.mk.inj hs
      exact ⟨_, more, hmore, fun n => by simp [step, hsign]⟩
  | @unmatchedBracket _ behind =>
      obtain ⟨rest, -, -, -, hfirst⟩ := exists_ofText_cons_eq ')' behind
      obtain ⟨more, hmore⟩ := hfirst .closing rfl
      obtain ⟨hlevel, -⟩ := State.mk.inj hs
      obtain rfl := List.length_eq_zero_iff.1 hlevel
      exact ⟨_, more, hmore, fun n => rfl⟩
  | @unknownFunction _ letters behind hmaximal hvalue hname =>
      obtain ⟨c, tail, hletters, hc⟩ := hmaximal.exists_cons
      rw [hletters, List.cons_append]
      obtain ⟨rest, behind', hbehind, hrun, hfirst⟩ := exists_ofText_cons_eq c (tail ++ behind)
      obtain ⟨more, hmore⟩ := hfirst _ (ofRun?_of_isAlpha hc)
      have hrest : letters.toList = c :: rest := by
        refine hmaximal.eq_of_isRun hrun ?_
        rw [hletters, List.cons_append, hbehind, List.cons_append]
      rw [← hrest, String.ofList_toList] at hmore
      exact ⟨_, more, hmore, fun n => by simp [step, hvalue, hname]⟩

/-- Reading fails at a lexeme, in the state that the lexemes before it leave. -/
theorem read_eq_error_iff {p : Progress} {units : List PlacedLexeme} {found : PlacedFault} :
    read m p units = .error found ↔
      ∃ front u back q, units = front ++ u :: back ∧ read m p front = .ok q ∧
        step m q u = .error found :=
  foldlM_eq_error_iff

/-- Reading a text fails exactly if it can be cut, where no two characters join, into a part that is
read and a part at fault in one of the ways there are. -/
theorem read_ofText_eq_error_iff {text : List Char} {found : PlacedFault} :
    read m {} (PlacedLexeme.ofText text) = .error found ↔
      ∃ before behind q fault, text = before ++ behind ∧ Apart before behind ∧
        read m {} (PlacedLexeme.ofText before) = .ok q ∧ Faults m q.state behind fault ∧
        found = fault.shift before.length := by
  rw [read_eq_error_iff]
  constructor
  · rintro ⟨front, u, back, q, hsplit, hread, hstep⟩
    obtain ⟨before, c, rest, behind, rfl, hrun, hu, hoffset, rfl⟩ :=
      PlacedLexeme.exists_isRun_of_ofText_eq hsplit
    obtain ⟨fault, hfault, rfl⟩ := faults_of_step_eq_error hstep hrun hu
    exact ⟨before, _, q, fault, rfl, hrun.apart_before.of_head?_eq rfl, hread, hfault,
      by rw [hoffset]⟩
  · rintro ⟨before, behind, q, fault, rfl, hapart, hread, hfault, rfl⟩
    obtain ⟨lexeme, more, hmore, hstep⟩ := exists_step_eq_error_of_faults hfault
    refine ⟨PlacedLexeme.ofText before, ⟨before.length, lexeme⟩,
      more.map (.shift before.length), q, ?_, hread, hstep _⟩
    rw [PlacedLexeme.ofText_append hapart, hmore]
    rfl

/-- Of a text that is read, what its lexemes emit. -/
theorem emitAll_of_read_eq_ok {text : List Char} {q : Progress}
    (h : read m {} (PlacedLexeme.ofText text) = .ok q) :
    emitAll m {} (Lexeme.ofText text) = .ok ⟨q.tokens.toList, q.state⟩ := by
  have herase := erase_read m {} (PlacedLexeme.ofText text)
  rw [h, PlacedLexeme.map_lexeme_ofText] at herase
  obtain ⟨e, hemit, htokens, hstate⟩ := exists_emission_of_erase_eq herase
  rw [htokens, hstate]
  exact hemit

/-! ## Open brackets -/

/-- Reading a lexeme opens a bracket at its place, closes the innermost one, or leaves the open
brackets as they are. -/
theorem openings_of_step_eq_ok {p q : Progress} {u : PlacedLexeme} (h : step m p u = .ok q) :
    q.openings = match u.lexeme with
      | .opening => u.offset :: p.openings
      | .closing => p.openings.tail
      | _ => p.openings := by
  have hfactor : p.factor.openings = p.openings := by
    unfold Progress.factor
    split <;> rfl
  obtain ⟨offset, lexeme⟩ := u
  cases lexeme with
  | literal run =>
      cases hc : p.complete <;> cases hread : Literal.read run <;> simp [step, hc, hread] at h
      subst h
      rfl
  | name letters =>
      cases hvalue : m[letters]? <;> cases hname : Builtin.ofName? letters <;>
        simp [step, hvalue, hname] at h <;> subst h <;> exact hfactor
  | operator op =>
      cases hc : p.complete <;> cases hsign : op.isSign <;> simp [step, hc, hsign] at h <;>
        subst h <;> rfl
  | opening =>
      obtain rfl := Except.ok.inj h
      simp [Progress.opening, hfactor]
  | closing =>
      cases hopen : p.openings <;> simp [step, hopen] at h
      subst h
      rfl
  | stray c => cases h

/-- Lexemes are read exactly if the first one is, and then the others. -/
theorem read_cons_eq_ok_iff {p q : Progress} {u : PlacedLexeme} {units : List PlacedLexeme} :
    read m p (u :: units) = .ok q ↔ ∃ p', step m p u = .ok p' ∧ read m p' units = .ok q := by
  cases hu : step m p u <;> simp [read_cons, hu, bind, Except.bind]

/-- A bracket that is open behind a reading was open before, or has been opened since. -/
theorem mem_openings_of_read_eq_ok {p q : Progress} {units : List PlacedLexeme}
    (h : read m p units = .ok q) {k : Nat} (hk : k ∈ q.openings) :
    k ∈ p.openings ∨ ⟨k, .opening⟩ ∈ units := by
  induction units generalizing p with
  | nil =>
      obtain rfl := Except.ok.inj h
      exact .inl hk
  | cons u units ih =>
      obtain ⟨p', hu, hunits⟩ := read_cons_eq_ok_iff.1 h
      rcases ih hunits with hopen | hlater
      · have hstep := openings_of_step_eq_ok hu
        obtain ⟨offset, lexeme⟩ := u
        cases lexeme <;> simp only at hstep <;> rw [hstep] at hopen
        case opening =>
          rcases List.mem_cons.1 hopen with rfl | hopen
          · exact .inr List.mem_cons_self
          · exact .inl hopen
        case closing => exact .inl (List.mem_of_mem_tail hopen)
        all_goals exact .inl hopen
      · exact .inr (List.mem_cons_of_mem u hlater)

/-- A bracket that is left open stands at its place in the text. -/
theorem exists_eq_append_opening {text : List Char} {q : Progress}
    (h : read m {} (PlacedLexeme.ofText text) = .ok q) {k : Nat} (hk : k ∈ q.openings) :
    ∃ before behind, text = before ++ '(' :: behind ∧ k = before.length := by
  have hmem : ⟨k, .opening⟩ ∈ PlacedLexeme.ofText text :=
    (mem_openings_of_read_eq_ok h hk).resolve_left List.not_mem_nil
  obtain ⟨front, back, hsplit⟩ := List.append_of_mem hmem
  obtain ⟨before, c, rest, behind, rfl, hrun, hu, hoffset, -⟩ :=
    PlacedLexeme.exists_isRun_of_ofText_eq hsplit
  obtain ⟨hspelling, -⟩ := hrun.spelling_eq hu (by simp)
  obtain rfl : '(' = c := (List.cons.inj hspelling).1
  exact ⟨before, rest ++ behind, rfl, hoffset⟩

/-! ## Whole texts -/

/-- A text has no tokens exactly if reading it fails, or leaves a bracket open: the innermost one is
at fault then. -/
theorem ofText_eq_error_iff {text : List Char} {found : PlacedFault} :
    ofText m text = .error found ↔
      read m {} (PlacedLexeme.ofText text) = .error found ∨
        ∃ q k outer, read m {} (PlacedLexeme.ofText text) = .ok q ∧ q.openings = k :: outer ∧
          found = ⟨k, .unmatchedBracket⟩ := by
  rw [ofText]
  cases hread : read m {} (PlacedLexeme.ofText text) with
  | error fault => simp [bind, Except.bind]
  | ok q =>
      cases hopen : q.openings with
      | nil => simp [Progress.finish, hopen, bind, Except.bind]
      | cons k outer => simp [Progress.finish, hopen, bind, Except.bind, eq_comm]

end Infix

section Texts

variable {text : String} {m : Bindings} {failure : Failure}

/-- A text is not converted because nothing is left of it when it is trimmed, or because it cannot
be read. -/
theorem toPostfix_eq_error_iff :
    toPostfix text m = .error failure ↔
      (trimmed text = [] ∧ failure = Fault.noInput.unplaced) ∨
      ∃ found, trimmed text ≠ [] ∧ Infix.ofText m (trimmed text) = .error found ∧
        failure = found.failure (String.ofList (trimmed text)) := by
  have hcomm (x : Failure) : x = failure ↔ failure = x := eq_comm
  by_cases hempty : trimmed text = []
  · simp [toPostfix, hempty, hcomm]
  · cases hread : Infix.ofText m (trimmed text) <;> simp [toPostfix, hempty, hread, hcomm]

/-- A text fails because nothing is left of it when it is trimmed, because it cannot be read, or
because its tokens in postfix order cannot be reduced. -/
theorem evaluate_eq_error_iff :
    evaluate text m = .error failure ↔
      (trimmed text = [] ∧ failure = Fault.noInput.unplaced) ∨
      (∃ found, trimmed text ≠ [] ∧ Infix.ofText m (trimmed text) = .error found ∧
        failure = found.failure (String.ofList (trimmed text))) ∨
      ∃ p fault, toPostfix text m = .ok p ∧ p.eval = .error fault ∧ failure = fault.unplaced := by
  have hcomm (x : Failure) : x = failure ↔ failure = x := eq_comm
  rw [← or_assoc, ← toPostfix_eq_error_iff]
  cases hconvert : toPostfix text m with
  | error found => simp [evaluate, hconvert]
  | ok p =>
      cases heval : p.eval <;>
        simp [evaluate, hconvert, Postfix.value, heval, Except.mapError, hcomm]

end Texts

/-- What cannot be read of a trimmed text is what the text fails for. -/
theorem evaluate_eq_error_of_read {text : String} {m : Bindings} {found : PlacedFault}
    (hne : trimmed text ≠ [])
    (h : read m {} (PlacedLexeme.ofText (trimmed text)) = .error found) :
    evaluate text m = .error (found.failure (String.ofList (trimmed text))) :=
  evaluate_eq_error_iff.2 (.inr (.inl ⟨found, hne, Infix.ofText_eq_error_iff.2 (.inl h), rfl⟩))

end Formula
