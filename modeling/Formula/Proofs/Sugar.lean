import Formula.Proofs.Acceptance

/-!
# Formula.Proofs.Sugar

A text with sugar means what it means with the sugar written out.

What may be left out of a text is a zero in front of a sign and a star in front of a name or a
bracket.  Whether something has been left out at a place shows from the lexeme before it alone:

* `ofText_spellOut` — the characters written in between become lexemes of their own, and leave all
  others as they are;
* `emitAll_omitted` — a lexeme with what is left out in front of it is read as the lexeme alone;
* `toPostfix_spelledOut` — a text and the text without sugar have the same postfix order, or fail
  for the same fault.
-/

namespace Formula

open Infix Lexeme

/-! ## Texts without sugar -/

namespace Lexeme

/-- Whether a value is to come: at the start of a text, and behind an operator, an opening bracket
or a function. -/
def awaitsValue (m : Bindings) : Option Lexeme → Bool
  | none | some (.operator _) | some .opening => true
  | some (.name letters) => (Lexeme.name letters).isFunction m
  | some (.literal _) | some .closing | some (.stray _) => false

/-- What a text may leave out in front of a lexeme, behind the lexeme before it: a zero in front of
a sign where a value is to come, and a star in front of a name or a bracket behind a value. -/
def omitted (m : Bindings) (previous : Option Lexeme) : Lexeme → List Char
  | .operator op => if op.isSign && awaitsValue m previous then ['0'] else []
  | .name _ | .opening => if previous.any (completes m) then ['*'] else []
  | .literal _ | .closing | .stray _ => []

/-- The runs of a text with all that is left out between them, read on behind a lexeme. -/
def spellOut (m : Bindings) (previous : Option Lexeme) : List (List Char) → List Char
  | [] => []
  | run :: runs =>
    match ofChars? run with
    | none => run ++ spellOut m previous runs
    | some u => omitted m previous u ++ (run ++ spellOut m (some u) runs)

/-- Lexemes with all that is left out between them, read on behind a lexeme. -/
def spellOutUnits (m : Bindings) (previous : Option Lexeme) : List Lexeme → List Lexeme
  | [] => []
  | u :: units => ofText (omitted m previous u) ++ u :: spellOutUnits m (some u) units

end Lexeme

/-- The text of a formula without blanks around it, and without sugar. -/
def spelledOut (text : String) (m : Bindings) : String :=
  String.ofList (spellOut m none ((trimmed text).splitBy joins))

/-- A product with a function, whose argument is a sign and what follows it. -/
example :
    let m : Bindings := Std.TreeMap.ofList [("x", (1 : Binary32))]
    spelledOut " 2sin -x (3)" m = "2*sin 0-x *(3)" := by
  decide +kernel

/-! ## Lexemes of a text without sugar -/

namespace Lexeme

variable {m : Bindings}

/-- Runs whose characters belong together are lexemes of their own. -/
theorem ofText_eq_singleton_of_ofChars? {run : List Char} (hrun : run.IsChain fun a b => joins a b)
    {u : Lexeme} (h : ofChars? run = some u) : ofText run = [u] := by
  have hne : run ≠ [] := by
    rintro rfl
    cases h
  rw [ofText, List.splitBy_of_isChain hne hrun, List.filterMap_cons_some h, List.filterMap_nil]

theorem ofText_zero : ofText ['0'] = [.literal ['0']] := by decide

theorem ofText_star : ofText ['*'] = [.operator .mul] := by decide

/-- What may be left out: nothing, a zero or a star, each in its own places. -/
theorem omitted_cases (m : Bindings) (previous : Option Lexeme) (u : Lexeme) :
    omitted m previous u = [] ∨
      (omitted m previous u = ['0'] ∧ awaitsValue m previous ∧
        ∃ op, u = .operator op ∧ op.isSign) ∨
      (omitted m previous u = ['*'] ∧ previous.any (completes m) ∧
        ((∃ letters, u = .name letters) ∨ u = .opening)) := by
  cases u with
  | operator op =>
      by_cases h : op.isSign ∧ awaitsValue m previous
      · exact .inr (.inl ⟨by simp [omitted, h], h.2, op, rfl, h.1⟩)
      · exact .inl (by simpa [omitted] using h)
  | name letters =>
      by_cases h : previous.any (completes m)
      · exact .inr (.inr ⟨by simp [omitted, h], h, .inl ⟨letters, rfl⟩⟩)
      · exact .inl (by simp [omitted, h])
  | opening =>
      by_cases h : previous.any (completes m)
      · exact .inr (.inr ⟨by simp [omitted, h], h, .inr rfl⟩)
      · exact .inl (by simp [omitted, h])
  | literal run => exact .inl rfl
  | closing => exact .inl rfl
  | stray c => exact .inl rfl

/-- Nothing that is left out joins the lexeme behind it. -/
theorem joins_omitted_eq_false {previous : Option Lexeme} {run : List Char}
    (hrun : run.IsChain fun a b => joins a b) {u : Lexeme} (h : ofChars? run = some u) :
    ∀ c ∈ (omitted m previous u).getLast?, ∀ d ∈ run.head?, joins c d = false := by
  intro c hc d hd
  rcases omitted_cases m previous u with hnil | ⟨-, -, op, rfl, -⟩ | ⟨hstar, -⟩
  · simp [hnil] at hc
  · obtain ⟨hspelling, -⟩ := spelling_eq_of_ofChars? hrun h (by simp)
    obtain rfl : op.symbol = d := by simpa [← hspelling, spelling] using hd
    exact joins_eq_false_of_isLone_right (isLone_symbol op) c
  · obtain rfl : '*' = c := by simpa [hstar] using hc
    exact joins_eq_false_of_isLone_left (by decide) d

/-- A zero joins nothing that awaits a value. -/
theorem joins_zero_eq_false {run : List Char} (hrun : run.IsChain fun a b => joins a b)
    {u : Lexeme} (h : ofChars? run = some u) (hawaits : awaitsValue m (some u)) :
    ∀ c ∈ run, joins c '0' = false := by
  intro c hc
  cases u with
  | name letters =>
      obtain ⟨hspelling, -, halpha⟩ := spelling_eq_of_ofChars? hrun h (by simp)
      have hletter : c.isAlpha := halpha c (by rwa [← hspelling] at hc)
      simp [joins, isNumeric_eq_false_of_isAlpha hletter]
  | operator op =>
      obtain ⟨hspelling, -⟩ := spelling_eq_of_ofChars? hrun h (by simp)
      obtain rfl : c = op.symbol := by simpa [← hspelling, spelling] using hc
      exact joins_eq_false_of_isLone_left (isLone_symbol op) '0'
  | opening =>
      obtain ⟨hspelling, -⟩ := spelling_eq_of_ofChars? hrun h (by simp)
      obtain rfl : c = '(' := by simpa [← hspelling, spelling] using hc
      exact joins_eq_false_of_isLone_left (by decide) '0'
  | literal run => cases hawaits
  | closing => cases hawaits
  | stray c => cases hawaits

/-- What follows a run in a text without sugar does not join it, if the next run does not. -/
theorem joins_head?_spellOut_eq_false {previous : Option Lexeme} {c : Char}
    {runs : List (List Char)} (hne : [] ∉ runs)
    (hnext : ∀ run ∈ runs.head?, ∀ d ∈ run.head?, joins c d = false)
    (hzero : awaitsValue m previous → joins c '0' = false) :
    ∀ d ∈ (spellOut m previous runs).head?, joins c d = false := by
  cases runs with
  | nil => simp [spellOut]
  | cons run runs =>
      have hhead (rest : List Char) : (run ++ rest).head? = run.head? := by
        obtain ⟨d, tail, rfl⟩ := List.exists_cons_of_ne_nil fun h => hne (h ▸ List.mem_cons_self)
        rfl
      have hrun : ∀ d ∈ run.head?, joins c d = false := hnext run rfl
      cases h : ofChars? run with
      | none => simpa only [spellOut, h, hhead] using hrun
      | some u =>
          simp only [spellOut, h]
          rcases omitted_cases m previous u with hnil | ⟨hzero', hawaits, -⟩ | ⟨hstar, -⟩
          · simpa only [hnil, List.nil_append, hhead] using hrun
          · simpa [hzero'] using hzero hawaits
          · simpa [hstar] using joins_eq_false_of_isLone_right (by decide) c

/-- The lexemes of a text without sugar are those of the text, with what is left out between
them. -/
theorem ofText_spellOut {runs : List (List Char)} (hne : [] ∉ runs)
    (hchain : ∀ run ∈ runs, run.IsChain fun a b => joins a b)
    (hsep : runs.IsChain fun a b => ∃ ha hb, joins (a.getLast ha) (b.head hb) = false)
    (previous : Option Lexeme) :
    ofText (spellOut m previous runs) = spellOutUnits m previous (runs.filterMap ofChars?) := by
  induction runs generalizing previous with
  | nil => rfl
  | cons run runs ih =>
      rw [List.mem_cons, not_or] at hne
      rw [List.forall_mem_cons] at hchain
      rw [List.isChain_cons] at hsep
      have hrest := ih hne.2 hchain.2 hsep.2
      cases h : ofChars? run with
      | none =>
          obtain ⟨c, tail, rfl⟩ := List.exists_cons_of_ne_nil (Ne.symm hne.1)
          have hc : Text.isBlank c := ofRun?_eq_none_iff.1 h
          obtain rfl := eq_nil_of_isChain (isLone_of_isBlank hc) hchain.1
          simp only [spellOut, h, List.filterMap_cons_none h, List.singleton_append]
          rw [ofText_cons_of_isBlank hc, hrest]
      | some u =>
          have hnext : ∀ c ∈ run.getLast?, ∀ d ∈ (spellOut m (some u) runs).head?,
              joins c d = false := by
            intro c hc
            refine joins_head?_spellOut_eq_false hne.2 ?_ fun hawaits => ?_
            · intro next hmem d hd
              obtain ⟨ha, hb, hjoin⟩ := hsep.1 next hmem
              rw [List.getLast?_eq_some_getLast ha, Option.mem_some_iff] at hc
              rw [List.head?_eq_some_head hb, Option.mem_some_iff] at hd
              rw [← hc, ← hd, hjoin]
            · exact joins_zero_eq_false hchain.1 h hawaits c (List.mem_of_mem_getLast? hc)
          have hfront : ∀ c ∈ (omitted m previous u).getLast?,
              ∀ d ∈ (run ++ spellOut m (some u) runs).head?, joins c d = false := by
            intro c hc d hd
            obtain ⟨e, tail, rfl⟩ := List.exists_cons_of_ne_nil (Ne.symm hne.1)
            exact joins_omitted_eq_false hchain.1 h c hc d hd
          simp only [spellOut, h, List.filterMap_cons_some h, spellOutUnits]
          rw [ofText_append hfront, ofText_append hnext, hrest,
            ofText_eq_singleton_of_ofChars? hchain.1 h, List.singleton_append]

end Lexeme

/-! ## Reading what is left out -/

variable {m : Bindings} {s : State}

/-- A state in which a reading may be behind a lexeme, as far as that tells. -/
structure Continues (m : Bindings) (previous : Option Lexeme) (s : State) : Prop where
  complete : previous.any (completes m) → s.complete = true
  incomplete : awaitsValue m previous → s.complete = false

/-- At the start of a text no value has been completed. -/
theorem continues_none : Continues m none {} :=
  ⟨fun h => absurd h Bool.false_ne_true, fun _ => rfl⟩

/-- Behind a lexeme that has been read, whether a value has been completed is for it to tell. -/
theorem Infix.Emits.continues {u : Lexeme} {e : Emission} (h : Emits m s u e) :
    Continues m (some u) e.state := by
  have hcomplete := h.complete_eq
  refine ⟨fun hvalue => by simpa [hcomplete] using hvalue, fun hawaits => ?_⟩
  cases u with
  | name letters =>
      have hfunction : m[letters]? = none ∧ (Builtin.ofName? letters).isSome := by
        simpa [awaitsValue, isFunction] using hawaits
      rw [hcomplete, completes, hfunction.1]
      rfl
  | operator op => exact hcomplete
  | opening => exact hcomplete
  | literal run => cases hawaits
  | closing => cases hawaits
  | stray c => cases hawaits

theorem Literal.read_zero : Literal.read ['0'] = .ok 0 := by decide +kernel

/-- A name or a bracket behind a value is read as it is read behind the product. -/
theorem emit_eq_map_after_product {u : Lexeme}
    (hu : (∃ letters, u = .name letters) ∨ u = .opening) :
    emit m s u = (emit m ⟨s.level, false⟩ u).map (Emission.after s.product) := by
  rcases hu with ⟨letters, rfl⟩ | rfl
  · cases hvalue : m[letters]? <;> cases hname : Builtin.ofName? letters <;>
      simp [emit, step, hvalue, hname, erase, Except.map, Emission.after]
  · simp [emit, step, erase, Except.map, Emission.after]

/-- A star behind a value, and then a name or a bracket, is read as the name or the bracket. -/
theorem emitAll_star {u : Lexeme} (hu : (∃ letters, u = .name letters) ∨ u = .opening)
    (hcomplete : s.complete = true) : emitAll m s [.operator .mul, u] = emit m s u := by
  obtain ⟨level, complete⟩ := s
  obtain rfl : complete = true := hcomplete
  rw [emitAll_cons_of_emits (.operator .mul), emitAll_singleton,
    emit_eq_map_after_product (s := ⟨level, true⟩) hu]
  rfl

/-- A zero where a value is to come, and then a sign, is read as the sign. -/
theorem emitAll_zero {op : BinaryOp} (hsign : op.isSign) (hcomplete : s.complete = false) :
    emitAll m s [.literal ['0'], .operator op] = emit m s (.operator op) := by
  obtain ⟨level, complete⟩ := s
  obtain rfl : complete = false := hcomplete
  rw [emitAll_cons_of_emits (.literal Literal.read_zero), emitAll_singleton,
    emit_eq_ok_iff.2 (.operator op), emit_eq_ok_iff.2 (.sign hsign)]
  rfl

/-- A lexeme with what is left out in front of it is read as the lexeme alone. -/
theorem emitAll_omitted {previous : Option Lexeme} (h : Continues m previous s) (u : Lexeme) :
    emitAll m s (ofText (omitted m previous u) ++ [u]) = emit m s u := by
  rcases omitted_cases m previous u with
    hnil | ⟨hzero, hawaits, op, rfl, hsign⟩ | ⟨hstar, hvalue, hu⟩
  · rw [hnil, ofText_nil, List.nil_append, emitAll_singleton]
  · rw [hzero, ofText_zero]
    exact emitAll_zero hsign (h.incomplete hawaits)
  · rw [hstar, ofText_star]
    exact emitAll_star hu (h.complete hvalue)

/-- Lexemes with what is left out between them are read as they are without. -/
theorem emitAll_spellOutUnits {previous : Option Lexeme} (h : Continues m previous s)
    (units : List Lexeme) : emitAll m s (spellOutUnits m previous units) = emitAll m s units := by
  induction units generalizing previous s with
  | nil => rfl
  | cons u units ih =>
      rw [spellOutUnits, List.append_cons, emitAll_append, emitAll_omitted h]
      cases hu : emit m s u with
      | error fault => simp [emitAll, hu, bind, Except.bind]
      | ok e =>
          have hrest := ih (emit_eq_ok_iff.1 hu).continues
          simp only [emitAll, hu, bind, Except.bind, hrest]

/-- What is left out between lexemes makes no difference to their postfix order. -/
theorem convert_spellOutUnits (units : List Lexeme) :
    convert m (spellOutUnits m none units) = convert m units := by
  cases units with
  | nil => rfl
  | cons u units =>
      have hne : spellOutUnits m none (u :: units) ≠ [] := by simp [spellOutUnits]
      rw [convert, convert, if_neg hne, if_neg (List.cons_ne_nil u units), tokensOf, tokensOf,
        emitAll_spellOutUnits continues_none]

/-- A text has the same postfix order, prices included, as the text with all its sugar written out,
or both fail for the same fault. -/
theorem toPostfix_spelledOut (text : String) (m : Bindings) :
    (toPostfix (spelledOut text m) m).mapError Failure.fault =
      (toPostfix text m).mapError Failure.fault := by
  have hunits : Lexeme.ofText (spelledOut text m).toList =
      spellOutUnits m none (Lexeme.ofText text.toList) := by
    rw [spelledOut, String.toList_ofList,
      ofText_spellOut (List.nil_notMem_splitBy _ _) (fun _ => List.isChain_of_mem_splitBy)
        (List.isChain_getLast_head_splitBy _ _),
      ← ofText_trim text.toList]
    rfl
  rw [mapError_toPostfix, mapError_toPostfix, hunits, convert_spellOutUnits]

end Formula
