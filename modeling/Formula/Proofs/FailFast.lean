import Formula.Proofs.Faults

/-!
# Formula.Proofs.FailFast

A fault that reading finds is decided by the text up to it.

Reading stops at the first fault, and looks at no more than one character behind it: at the one that
might be a further letter of an unknown name, or the digit that a dot lacks.  So whatever is written
behind the text up to there, unless it starts with just such a character, the same fault is found at
the same place.  Only a bracket that is never closed takes the whole text to be found.

* `IsTight.exists_trim_append` — trimming does not reach into a text that ends in no blank;
* `decides_of_faults` — what is at fault is so by its first characters, whatever follows them;
* `evaluate_decisive_append` — no later fault, open bracket or reduction takes priority.
-/

namespace Formula

/-! ## Trimmed texts -/

namespace Text

/-- A trimmed text does not start with a blank. -/
theorem isBlank_head?_trim (text : List Char) : ∀ c ∈ (trim text).head?, isBlank c = false := by
  intro c hc
  have hprefix : trim text <+: text.dropWhile isBlank := by
    rw [trim, ← List.reverse_suffix, List.reverse_reverse]
    exact List.dropWhile_suffix _
  obtain ⟨trail, htrail⟩ := hprefix
  have hhead : c ∈ (text.dropWhile isBlank).head? :=
    htrail ▸ List.mem_head?_append_of_mem_head? hc
  have hblank := List.head?_dropWhile_not isBlank text
  rwa [Option.mem_def.1 hhead] at hblank

/-- A trimmed text does not end in a blank. -/
theorem isBlank_getLast?_trim (text : List Char) :
    ∀ c ∈ (trim text).getLast?, isBlank c = false := by
  intro c hc
  rw [trim, List.getLast?_reverse, Option.mem_def] at hc
  have hblank := List.head?_dropWhile_not isBlank (text.dropWhile isBlank).reverse
  rwa [hc] at hblank

/-- A text that starts and ends with a character that is no blank. -/
structure IsTight (text : List Char) : Prop where
  head : ∃ c ∈ text.head?, isBlank c = false
  last : ∃ c ∈ text.getLast?, isBlank c = false

theorem isTight_singleton {c : Char} (h : isBlank c = false) : IsTight [c] :=
  ⟨⟨c, rfl, h⟩, ⟨c, rfl, h⟩⟩

/-- More may be written in front of a tight text, if it does not start with a blank. -/
theorem IsTight.append_left {text before : List Char} (h : IsTight text)
    (hbefore : ∀ c ∈ before.head?, isBlank c = false) : IsTight (before ++ text) := by
  cases before with
  | nil => exact h
  | cons c before =>
      obtain ⟨d, hd, hblank⟩ := h.last
      exact ⟨⟨c, rfl, hbefore c rfl⟩, d, List.mem_getLast?_append_of_mem_getLast? hd, hblank⟩

theorem IsTight.ne_nil {text : List Char} (h : IsTight text) : text ≠ [] := by
  rintro rfl
  obtain ⟨c, hc, -⟩ := h.head
  cases hc

/-- Whatever is written behind it, a tight text starts with its first character. -/
theorem IsTight.head?_append {text : List Char} (h : IsTight text) (behind : List Char) :
    (text ++ behind).head? = text.head? := by
  obtain ⟨c, hc, -⟩ := h.head
  exact (Option.mem_def.1 (List.mem_head?_append_of_mem_head? hc)).trans hc.symm

/-- Trimming keeps a tight text, and the beginning of what is written behind it. -/
theorem IsTight.exists_trim_append {text : List Char} (h : IsTight text) (behind : List Char) :
    ∃ rest, rest <+: behind ∧ trim (text ++ behind) = text ++ rest := by
  obtain ⟨⟨c, hc, hblank⟩, d, hd, hblank'⟩ := h
  obtain ⟨tail, rfl⟩ := List.head?_eq_some_iff.1 hc
  obtain ⟨front, hfront⟩ := List.getLast?_eq_some_iff.1 hd
  have hlead : (c :: tail ++ behind).dropWhile isBlank = c :: tail ++ behind :=
    List.dropWhile_cons_of_neg (by simp [hblank])
  have htrail : (c :: tail).reverse.dropWhile isBlank = (c :: tail).reverse := by
    rw [hfront, List.reverse_append]
    exact List.dropWhile_cons_of_neg (by simp [hblank'])
  refine ⟨(behind.reverse.dropWhile isBlank).reverse, ?_, ?_⟩
  · rw [← List.reverse_suffix, List.reverse_reverse]
    exact List.dropWhile_suffix _
  · rw [trim, hlead, List.reverse_append, List.dropWhile_append]
    split
    · next hempty =>
      rw [htrail, List.isEmpty_iff.1 hempty, List.reverse_reverse, List.reverse_nil,
        List.append_nil]
    · rw [List.reverse_append, List.reverse_reverse]

/-- Trimming leaves nothing, or a tight text. -/
theorem isTight_trim {text : List Char} (hne : trim text ≠ []) : IsTight (trim text) :=
  ⟨⟨_, List.head?_eq_some_head hne, isBlank_head?_trim text _ (List.head?_eq_some_head hne)⟩,
    ⟨_, List.getLast?_eq_some_getLast hne,
      isBlank_getLast?_trim text _ (List.getLast?_eq_some_getLast hne)⟩⟩

/-- Trimming keeps a tight text as it is. -/
theorem IsTight.trim_eq {text : List Char} (h : IsTight text) : trim text = text := by
  obtain ⟨rest, hrest, htrim⟩ := h.exists_trim_append []
  rwa [List.prefix_nil.1 hrest, List.append_nil] at htrim

/-- A tight text stays tight when anything is written into it. -/
theorem IsTight.insert {first second : List Char} (h : IsTight (first ++ second))
    (hfirst : first ≠ []) (hsecond : second ≠ []) (between : List Char) :
    IsTight (first ++ (between ++ second)) := by
  obtain ⟨hhead, hlast⟩ := h
  rw [List.head?_append_of_ne_nil _ hfirst] at hhead
  rw [List.getLast?_append_of_ne_nil _ hsecond] at hlast
  refine ⟨?_, ?_⟩
  · rwa [List.head?_append_of_ne_nil _ hfirst]
  · rwa [← List.append_assoc, List.getLast?_append_of_ne_nil _ hsecond]

end Text

open Infix Lexeme Text

/-! ## Decisive parts -/

namespace Fault

/-- The part of a text that decides on a fault at an offset: all up to the character at fault, up to
the end of the unknown name, or up to the dot that lacks a digit. -/
def decisive (text : List Char) (offset : Nat) : Fault → List Char
  | unknownFunction _ => text.take offset ++ (text.drop offset).takeWhile Char.isAlpha
  | missingFraction => text.take offset
  | _ => text.take (offset + 1)

/-- Whether a character that comes next is taken in with the part that decides on a fault: one more
letter of the name, or the digit that the dot lacks. -/
def isMendedBy (c : Char) : Fault → Bool
  | unknownFunction _ => c.isAlpha
  | missingFraction => c.isDigit
  | _ => false

theorem decisive_append (before behind : List Char) (offset : Nat) (fault : Fault) :
    fault.decisive (before ++ behind) (before.length + offset) =
      before ++ fault.decisive behind offset := by
  cases fault <;> simp [decisive, Nat.add_assoc, List.take_length_add_append]

theorem decisive_prefix (text : List Char) (offset : Nat) (fault : Fault) :
    fault.decisive text offset <+: text := by
  cases fault with
  | unknownFunction letters =>
      have hprefix := (List.takeWhile_prefix Char.isAlpha (l := text.drop offset))
      have h := (List.prefix_append_right_inj (text.take offset)).2 hprefix
      rwa [List.take_append_drop] at h
  | _ => exact List.take_prefix _ _

end Fault

namespace Infix

/-- A text that is at fault when it is read on from a state, and stays so whatever follows. -/
structure Decides (m : Bindings) (s : State) (text : List Char) (found : PlacedFault) : Prop where
  isTight : IsTight text
  faults : ∀ behind : List Char, (∀ c ∈ behind.head?, found.fault.isMendedBy c = false) →
    Faults m s (text ++ behind) found

variable {m : Bindings} {s : State} {text : List Char} {found : PlacedFault}

/-- A character that is at fault whatever follows decides for itself. -/
theorem decides_singleton {c : Char} (hc : isBlank c = false)
    (h : ∀ behind, Faults m s (c :: behind) found) : Decides m s [c] found :=
  ⟨isTight_singleton hc, fun behind _ => h behind⟩

/-- An unknown name is decided where its letters end. -/
theorem decides_letters {letters : String} {behind : List Char}
    (h : IsLetterRun [] letters behind) (hvalue : m[letters]? = none)
    (hname : Builtin.ofName? letters = none) :
    Decides m s letters.toList ⟨0, .unknownFunction letters⟩ := by
  have hne : letters.toList ≠ [] := fun hnil => h.ne_empty (String.toList_eq_nil_iff.1 hnil)
  have hblank : ∀ c ∈ letters.toList, isBlank c = false :=
    fun c hc => isBlank_eq_false_of_isAlpha (h.isAlpha c hc)
  refine ⟨⟨⟨_, List.head?_eq_some_head hne, hblank _ (List.head_mem hne)⟩,
    ⟨_, List.getLast?_eq_some_getLast hne, hblank _ (List.getLast_mem hne)⟩⟩, fun more hmore => ?_⟩
  exact .unknownFunction { h with not_behind := hmore } hvalue hname

/-- Digits and what else is written of a literal are tight, up to a dot. -/
theorem isTight_digits_append_dot {digits : List Char} (hne : digits ≠ [])
    (hdigits : ∀ c ∈ digits, c.isDigit) (rest : List Char) :
    IsTight (digits ++ rest ++ ['.']) := by
  obtain ⟨d, tail, rfl⟩ := List.exists_cons_of_ne_nil hne
  refine (isTight_singleton (by decide)).append_left fun c hc => ?_
  obtain rfl : d = c := Option.some.inj hc
  exact isBlank_eq_false_of_isDigit (hdigits d List.mem_cons_self)

/-- A malformed literal is decided by the dot that lacks a digit, or by the second dot. -/
theorem decides_of_malformed {level : Nat} (h : Literal.Malformed text found) :
    Decides m ⟨level, false⟩ (found.fault.decisive text found.offset) found := by
  cases h with
  | @missingFraction digits rest hne hdigits hrest =>
      have hpart : Fault.missingFraction.decisive (digits ++ '.' :: rest) (digits.length + 1) =
          digits ++ [] ++ ['.'] := by
        rw [Fault.decisive, List.take_length_add_append, List.append_nil]
        rfl
      rw [hpart]
      refine ⟨isTight_digits_append_dot hne hdigits [], fun behind hbehind => ?_⟩
      rw [List.append_nil, List.append_assoc]
      exact .malformed (.missingFraction hne hdigits hbehind)
  | @secondDot digits places rest hne hdigits hplaces hall =>
      have hpart : Fault.secondDot.decisive (digits ++ '.' :: (places ++ '.' :: rest))
          (digits.length + 1 + places.length) = digits ++ '.' :: places ++ ['.'] := by
        rw [Fault.decisive, Nat.add_assoc, Nat.add_assoc, List.take_length_add_append,
          Nat.add_comm 1, List.take_succ_cons, List.take_length_add_append, List.append_assoc]
        · rfl
        · nofun
        · nofun
      rw [hpart]
      refine ⟨isTight_digits_append_dot hne hdigits _, fun behind _ => ?_⟩
      rw [List.append_assoc, List.append_assoc]
      exact .malformed (.secondDot hne hdigits hplaces hall)

/-- What is at fault is so by the part of it that decides. -/
theorem decides_of_faults (h : Faults m s text found) :
    Decides m s (found.fault.decisive text found.offset) found := by
  cases h with
  | strayCharacter hstray =>
      exact decides_singleton hstray.not_blank fun _ => .strayCharacter hstray
  | adjacentDigit hc =>
      exact decides_singleton (isBlank_eq_false_of_isDigit hc) fun _ => .adjacentDigit hc
  | malformed hmalformed => exact decides_of_malformed hmalformed
  | @missingOperand level op behind hsign =>
      refine decides_singleton ?_ fun _ => .missingOperand hsign
      cases op <;> decide
  | unmatchedBracket => exact decides_singleton (by decide) fun _ => .unmatchedBracket
  | @unknownFunction _ letters behind hletters hvalue hname =>
      have hdecides : Decides m s letters.toList _ := decides_letters hletters hvalue hname
      rwa [← hletters.takeWhile_eq] at hdecides

/-! ## Readings that fail -/

/-- What decides on a fault is tight, if the text does not start with a blank. -/
theorem isTight_decisive (h : read m {} (PlacedLexeme.ofText text) = .error found)
    (hhead : ∀ c ∈ text.head?, isBlank c = false) :
    IsTight (found.fault.decisive text found.offset) := by
  obtain ⟨before, behind, q, fault, rfl, -, -, hfault, rfl⟩ := read_ofText_eq_error_iff.1 h
  rw [PlacedFault.fault_shift, PlacedFault.offset_shift, Fault.decisive_append]
  exact (decides_of_faults hfault).isTight.append_left fun c hc =>
    hhead c (List.mem_head?_append_of_mem_head? hc)

/-- Whatever follows what decides on a fault, that fault is found. -/
theorem read_decisive_append (h : read m {} (PlacedLexeme.ofText text) = .error found)
    {more : List Char} (hmore : ∀ c ∈ more.head?, found.fault.isMendedBy c = false) :
    read m {} (PlacedLexeme.ofText (found.fault.decisive text found.offset ++ more)) =
      .error found := by
  obtain ⟨before, behind, q, fault, rfl, hapart, hread, hfault, rfl⟩ :=
    read_ofText_eq_error_iff.1 h
  rw [PlacedFault.fault_shift, PlacedFault.offset_shift, Fault.decisive_append, List.append_assoc]
  have hdecides := decides_of_faults hfault
  -- What is at fault still opens with the same character, so the text can be cut at the same place.
  have hhead : (fault.fault.decisive behind fault.offset ++ more).head? = behind.head? := by
    obtain ⟨rest, hrest⟩ := fault.fault.decisive_prefix behind fault.offset
    rw [hdecides.isTight.head?_append, ← hdecides.isTight.head?_append rest, hrest]
  exact read_ofText_eq_error_iff.2 ⟨before, _, q, fault, rfl, hapart.of_head?_eq hhead, hread,
    hdecides.faults more hmore, rfl⟩

end Infix

/-! ## Whole texts -/

/-- A tight text stays as it is when it is trimmed with more behind it. -/
theorem Text.IsTight.exists_trimmed_append {part : List Char} (h : IsTight part) (more : String) :
    ∃ rest, rest <+: more.toList ∧ trimmed (String.ofList part ++ more) = part ++ rest := by
  obtain ⟨rest, hrest, htrim⟩ := h.exists_trim_append more.toList
  refine ⟨rest, hrest, ?_⟩
  rw [trimmed, String.toList_append, String.toList_ofList, htrim]

/-- A fault that has a place, unless it is a bracket that is never closed, is found again at that
place in every text that starts with what decides on it. -/
theorem evaluate_decisive_append {text : String} {m : Bindings} {failure : Failure}
    {place : Location} (h : evaluate text m = .error failure)
    (hplace : failure.location = some place)
    (hclosed : failure.fault.kind = .mismatchedBracket →
      (trimmed text)[place.offset]? ≠ some '(')
    (more : String) (hmore : ∀ c ∈ more.toList.head?, failure.fault.isMendedBy c = false) :
    let extended := String.ofList (failure.fault.decisive (trimmed text) place.offset) ++ more
    evaluate extended m =
      .error ⟨failure.fault, some ⟨String.ofList (trimmed extended), place.offset⟩⟩ := by
  rcases evaluate_eq_error_iff.1 h with ⟨-, rfl⟩ | ⟨found, hne, htext, rfl⟩ | ⟨p, fault, -, -, rfl⟩
  · cases hplace
  · obtain rfl := Option.some.inj hplace
    rcases Infix.ofText_eq_error_iff.1 htext with hread | ⟨q, k, outer, hread, hopen, rfl⟩
    · intro extended
      have htight := isTight_decisive hread (isBlank_head?_trim text.toList)
      obtain ⟨rest, ⟨tail, htail⟩, htrimmed⟩ := htight.exists_trimmed_append more
      have hrest : ∀ c ∈ rest.head?, found.fault.isMendedBy c = false :=
        fun c hc => hmore c (htail ▸ List.mem_head?_append_of_mem_head? hc)
      have hextended := read_decisive_append hread hrest
      rw [← htrimmed] at hextended
      refine evaluate_eq_error_of_read (fun hnil => htight.ne_nil ?_) hextended
      exact (List.append_eq_nil_iff.1 (htrimmed.symm.trans hnil)).1
    · obtain ⟨before, behind, hsplit, rfl⟩ :=
        exists_eq_append_opening hread (hopen ▸ List.mem_cons_self : k ∈ q.openings)
      have hopening : (trimmed text)[before.length]? = some '(' := by
        rw [hsplit, List.getElem?_append_right (Nat.le_refl _), Nat.sub_self]
        rfl
      exact absurd hopening (hclosed rfl)
  · cases hplace

/-- A literal's dot without a digit, behind which a name and an unknown character follow. -/
theorem evaluate_decisive_append_dot :
    let m : Bindings := {}
    let failure : Failure := ⟨.missingFraction, some ⟨"(12.", 4⟩⟩
    evaluate " (12. " m = .error failure ∧
      evaluate ("(12." ++ "x ) $ ") m = .error ⟨.missingFraction, some ⟨"(12.x ) $", 4⟩⟩ := by
  intro m failure
  have h : evaluate " (12. " m = .error failure := by decide +kernel
  refine ⟨h, ?_⟩
  have hdecisive : String.ofList (failure.fault.decisive (trimmed " (12. ") 4) = "(12." := by
    decide +kernel
  have htrimmed : String.ofList (trimmed ("(12." ++ "x ) $ ")) = "(12.x ) $" := by decide +kernel
  have hmore : ∀ c ∈ "x ) $ ".toList.head?, failure.fault.isMendedBy c = false := by
    intro c hc
    obtain rfl : 'x' = c := Option.some.inj hc
    rfl
  have hextended := evaluate_decisive_append h rfl (by decide) "x ) $ " hmore
  simpa only [hdecisive, htrimmed] using hextended

end Formula
