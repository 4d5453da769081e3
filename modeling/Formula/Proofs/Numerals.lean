import Formula.Proofs.Calls
import Formula.Proofs.FailFast

/-!
# Formula.Proofs.Numerals

Texts of digits and dots.

A numeral is digits, or digits, a dot and more digits.  A text of digits and dots that is no numeral
breaks off at one of three places: at once, if it starts with a dot; right behind the first dot, if
no digit follows that; or else at the second dot.  A dot that no digit follows is at fault even if
that is because a second dot follows it.

* `isNumeral_or_exists_breaksOffAt` — every such text is a numeral or breaks off;
* `evaluate_digits_and_dots` — the numerals have a value, and are converted to a single number; what
  breaks off fails at the place where it does.
-/

namespace Formula

open Infix Lexeme

/-! ## Numerals -/

/-- Digits, or digits, a dot and more digits. -/
def IsNumeral (text : List Char) : Prop :=
  ∃ digits, digits ≠ [] ∧ (∀ c ∈ digits, c.isDigit) ∧
    (text = digits ∨
      ∃ places, places ≠ [] ∧ (∀ c ∈ places, c.isDigit) ∧ text = digits ++ '.' :: places)

/-- Where a text of digits and dots breaks off that is no numeral. -/
inductive BreaksOffAt : List Char → Nat → Prop
  | leadingDot {rest : List Char} : BreaksOffAt ('.' :: rest) 0
  | bareDot {front rest : List Char} :
      front ≠ [] → '.' ∉ front → (∀ c ∈ rest.head?, c.isDigit = false) →
        BreaksOffAt (front ++ '.' :: rest) (front.length + 1)
  | secondDot {front places rest : List Char} :
      front ≠ [] → '.' ∉ front → (∃ c ∈ places.head?, c.isDigit) → '.' ∉ places →
        BreaksOffAt (front ++ '.' :: (places ++ '.' :: rest)) (front.length + 1 + places.length)

/-- The numerals are the literals of the grammar. -/
theorem isNumeral_iff_exists_denotes {text : List Char} :
    IsNumeral text ↔ ∃ v, Literal.Denotes text v := by
  constructor
  · rintro ⟨digits, hne, hdigits, rfl | ⟨places, hplaces, hall, rfl⟩⟩
    · exact ⟨_, .whole hne hdigits⟩
    · exact ⟨_, .decimal hne hdigits hplaces hall⟩
  · rintro ⟨v, h⟩
    cases h with
    | whole hne hdigits => exact ⟨_, hne, hdigits, .inl rfl⟩
    | decimal hne hdigits hplaces hall => exact ⟨_, hne, hdigits, .inr ⟨_, hplaces, hall, rfl⟩⟩

theorem dot_not_mem_of_isDigit {digits : List Char} (h : ∀ c ∈ digits, c.isDigit) :
    '.' ∉ digits :=
  fun hmem => absurd (h '.' hmem) (by decide)

/-- Of digits and dots, all but the dots are digits. -/
theorem isDigit_of_dot_not_mem {text : List Char} (h : ∀ c ∈ text, isNumeric c)
    (hdot : '.' ∉ text) : ∀ c ∈ text, c.isDigit := by
  intro c hc
  have hne : c ≠ '.' := fun heq => hdot (heq ▸ hc)
  simpa [isNumeric, hne] using h c hc

/-- A malformed literal breaks off where it is at fault. -/
theorem Literal.Malformed.breaksOffAt {text : List Char} {found : PlacedFault}
    (h : Malformed text found) : BreaksOffAt text found.offset := by
  cases h with
  | missingFraction hne hdigits hrest => exact .bareDot hne (dot_not_mem_of_isDigit hdigits) hrest
  | @secondDot digits places rest hne hdigits hplaces hall =>
      obtain ⟨c, places, rfl⟩ := List.exists_cons_of_ne_nil hplaces
      exact .secondDot hne (dot_not_mem_of_isDigit hdigits) ⟨c, rfl, hall c List.mem_cons_self⟩
        (dot_not_mem_of_isDigit hall)

section Texts

variable {text : List Char} (hnumeric : ∀ c ∈ text, isNumeric c)
include hnumeric

/-- A text of digits and dots is a numeral or breaks off. -/
theorem isNumeral_or_exists_breaksOffAt (hne : text ≠ []) :
    IsNumeral text ∨ ∃ offset, BreaksOffAt text offset := by
  obtain ⟨c, rest, rfl⟩ := List.exists_cons_of_ne_nil hne
  rw [List.forall_mem_cons] at hnumeric
  by_cases hc : c.isDigit
  · have hunit : (Lexeme.literal (c :: rest)).IsUnit := ⟨c, rest, rfl, hc, hnumeric.2⟩
    cases hread : Literal.read (c :: rest) with
    | ok v =>
        have hdenotes := Literal.denotes_of_read_eq_ok hunit hread
        exact .inl (isNumeral_iff_exists_denotes.2 ⟨v, hdenotes⟩)
    | error found =>
        exact .inr ⟨_, (Literal.malformed_of_read_eq_error hunit hread).breaksOffAt⟩
  · obtain rfl : c = '.' := by simpa [isNumeric, hc] using hnumeric.1
    exact .inr ⟨0, .leadingDot⟩

/-- Where a text of digits and dots breaks off, it is at fault. -/
theorem exists_faults_of_breaksOffAt {offset : Nat} (h : BreaksOffAt text offset) (m : Bindings)
    (level : Nat) :
    ∃ fault, Faults m ⟨level, false⟩ text ⟨offset, fault⟩ ∧ fault.kind = .unexpectedCharacter := by
  cases h with
  | leadingDot =>
      have hstray : IsStray '.' := by constructor <;> decide
      exact ⟨_, .strayCharacter hstray, rfl⟩
  | bareDot hne hdot hrest =>
      rw [List.forall_mem_append] at hnumeric
      have hdigits := isDigit_of_dot_not_mem hnumeric.1 hdot
      exact ⟨_, .malformed (.missingFraction hne hdigits hrest), rfl⟩
  | secondDot hne hdot hfirst hdot' =>
      rw [List.forall_mem_append, List.forall_mem_cons, List.forall_mem_append] at hnumeric
      have hdigits := isDigit_of_dot_not_mem hnumeric.1 hdot
      have hplaces := isDigit_of_dot_not_mem hnumeric.2.2.1 hdot'
      obtain ⟨c, hc, -⟩ := hfirst
      have hne' := List.ne_nil_of_mem (List.mem_of_mem_head? hc)
      exact ⟨_, .malformed (.secondDot hne hdigits hne' hplaces), rfl⟩

end Texts

/-! ## Values of texts -/

section Values

variable {w : String} {m : Bindings}

/-- A text of digits and dots is trimmed already. -/
theorem trimmed_eq_toList (hne : w ≠ "") (hnumeric : ∀ c ∈ w.toList, isNumeric c) :
    trimmed w = w.toList := by
  have hblank : ∀ c ∈ w.toList, Text.isBlank c = false := by
    intro c hc
    by_cases hdigit : c.isDigit
    · exact isBlank_eq_false_of_isDigit hdigit
    · obtain rfl : c = '.' := by simpa [isNumeric, hdigit] using hnumeric c hc
      decide
  have hlist : w.toList ≠ [] := String.toList_eq_nil_iff.not.2 hne
  exact Text.IsTight.trim_eq
    ⟨⟨_, List.head?_eq_some_head hlist, hblank _ (List.head_mem hlist)⟩,
      ⟨_, List.getLast?_eq_some_getLast hlist, hblank _ (List.getLast_mem hlist)⟩⟩

/-- A literal is converted to the number it denotes, alone. -/
theorem Literal.Denotes.toPostfix_eq {v : Binary32} (h : Denotes w.toList v) :
    toPostfix w m = .ok ⟨[.number v]⟩ := by
  have hunits : Lexeme.ofText w.toList ≠ [] := h.ofText_eq ▸ List.cons_ne_nil _ _
  rw [toPostfix_eq_ok_iff, convert_eq_ok_iff]
  exact ⟨hunits, _, h.emitAll_ofText m 0, rfl, rfl⟩

/-- A literal has the value it denotes. -/
theorem Literal.Denotes.evaluate_eq {v : Binary32} (h : Denotes w.toList v) :
    evaluate w m = .ok v :=
  evaluate_eq_ok_iff_exists_eval.2 ⟨_, h.toPostfix_eq, rfl⟩

/-- A numeral is converted to a single number, which is its value. -/
theorem exists_toPostfix_of_isNumeral (h : IsNumeral w.toList) :
    ∃ v, toPostfix w m = .ok ⟨[.number v]⟩ ∧ evaluate w m = .ok v := by
  obtain ⟨v, hdenotes⟩ := isNumeral_iff_exists_denotes.1 h
  exact ⟨v, hdenotes.toPostfix_eq, hdenotes.evaluate_eq⟩

/-- What breaks off fails where it does. -/
theorem exists_evaluate_eq_error_of_breaksOffAt (hne : w ≠ "")
    (hnumeric : ∀ c ∈ w.toList, isNumeric c) {offset : Nat} (h : BreaksOffAt w.toList offset) :
    ∃ fault, fault.kind = .unexpectedCharacter ∧
      evaluate w m = .error ⟨fault, some ⟨w, offset⟩⟩ := by
  obtain ⟨fault, hfaults, hkind⟩ := exists_faults_of_breaksOffAt hnumeric h m 0
  have htrimmed := trimmed_eq_toList hne hnumeric
  have hread : read m {} (PlacedLexeme.ofText (trimmed w)) = .error ⟨offset, fault⟩ := by
    rw [htrimmed, read_ofText_eq_error_iff]
    exact ⟨[], _, {}, _, rfl, apart_nil_left _, rfl, hfaults, by simp [PlacedFault.shift]⟩
  have hlist : trimmed w ≠ [] := htrimmed ▸ String.toList_eq_nil_iff.not.2 hne
  have hfails := evaluate_eq_error_of_read hlist hread
  rw [htrimmed, String.ofList_toList] at hfails
  exact ⟨fault, hkind, hfails⟩

end Values

/-- A text of digits and dots has a value exactly if it is a numeral, and is converted to a single
number then.  If it is none it breaks off: at a leading dot, behind a dot that no digit follows, or
at a second dot; and it fails there, for a character that is not expected. -/
theorem evaluate_digits_and_dots {w : String} (hne : w ≠ "")
    (hw : ∀ c ∈ w.toList, c.isDigit ∨ c = '.') (m : Bindings) :
    ((∃ v, evaluate w m = .ok v) ↔ IsNumeral w.toList) ∧
      (IsNumeral w.toList → ∃ v, toPostfix w m = .ok ⟨[.number v]⟩ ∧ evaluate w m = .ok v) ∧
      (¬IsNumeral w.toList → ∃ offset, BreaksOffAt w.toList offset) ∧
      ∀ offset, BreaksOffAt w.toList offset →
        ∃ fault, fault.kind = .unexpectedCharacter ∧
          evaluate w m = .error ⟨fault, some ⟨w, offset⟩⟩ := by
  have hnumeric : ∀ c ∈ w.toList, isNumeric c := by simpa [isNumeric] using hw
  have hcases : IsNumeral w.toList ∨ ∃ offset, BreaksOffAt w.toList offset :=
    isNumeral_or_exists_breaksOffAt hnumeric (String.toList_eq_nil_iff.not.2 hne)
  refine ⟨⟨?_, fun h => ?_⟩, exists_toPostfix_of_isNumeral, hcases.resolve_left,
    fun _ => exists_evaluate_eq_error_of_breaksOffAt hne hnumeric⟩
  · rintro ⟨v, hvalue⟩
    refine hcases.resolve_right ?_
    rintro ⟨offset, hbreaks⟩
    obtain ⟨fault, -, hfails⟩ :=
      exists_evaluate_eq_error_of_breaksOffAt (m := m) hne hnumeric hbreaks
    cases hvalue.symm.trans hfails
  · obtain ⟨v, -, hvalue⟩ := exists_toPostfix_of_isNumeral (m := m) h
    exact ⟨v, hvalue⟩

/-- A numeral with zeros at both ends, and a text with a second dot right behind the first. -/
theorem evaluate_digits_and_dots_adjacent :
    let m : Bindings := {}
    ("007.50" ≠ "" ∧ (∀ c ∈ "007.50".toList, c.isDigit ∨ c = '.') ∧ IsNumeral "007.50".toList ∧
      ∃ v, toPostfix "007.50" m = .ok ⟨[.number v]⟩ ∧ evaluate "007.50" m = .ok v) ∧
    ("12..5" ≠ "" ∧ (∀ c ∈ "12..5".toList, c.isDigit ∨ c = '.') ∧
      BreaksOffAt "12..5".toList 3 ∧ ¬IsNumeral "12..5".toList ∧
      ∃ fault, fault.kind = .unexpectedCharacter ∧
        evaluate "12..5" m = .error ⟨fault, some ⟨"12..5", 3⟩⟩) := by
  intro m
  have hne : "007.50" ≠ "" := by decide
  have hne' : "12..5" ≠ "" := by decide
  have hw : ∀ c ∈ "007.50".toList, c.isDigit ∨ c = '.' := by simp
  have hw' : ∀ c ∈ "12..5".toList, c.isDigit ∨ c = '.' := by simp
  have hnumeral : IsNumeral "007.50".toList :=
    ⟨['0', '0', '7'], by decide, by simp, .inr ⟨['5', '0'], by decide, by simp, rfl⟩⟩
  have hbreaks : BreaksOffAt (['1', '2'] ++ '.' :: ['.', '5']) 3 :=
    .bareDot (by decide) (by decide) (by simp)
  obtain ⟨-, hvalue, -⟩ := evaluate_digits_and_dots hne hw m
  obtain ⟨hiff, -, -, hfails⟩ := evaluate_digits_and_dots hne' hw' m
  have hfault := hfails 3 hbreaks
  refine ⟨⟨hne, hw, hnumeral, hvalue hnumeral⟩, hne', hw', hbreaks, fun hnumeral' => ?_, hfault⟩
  obtain ⟨v, hv⟩ := hiff.2 hnumeral'
  obtain ⟨fault, -, herror⟩ := hfault
  cases hv.symm.trans herror

end Formula
