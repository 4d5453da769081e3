import Mathlib.Data.List.DropRight
import Formula.Proofs.Diagnosis

/-!
# Formula.Proofs.Rendering

How a failure is printed.

The message comes first, in a line of its own.  If the failure has a place, the text that was read
follows, as it is, and last a line with a caret as many characters in as the offset says.  So a text
of one line is drawn in three lines, with the caret in the column of the character at fault.  A text
with line breaks takes more lines, and the offset counts across them.

There is no bound on how far in a caret may stand.  A formatter that holds widths in sixteen bits
draws the same pictures for offsets below 65536.

* `Failure.lines_toString` — the lines that are printed;
* `Fault.IsLegible.eq_of_message_eq` — a message tells what the fault is;
* `Failure.eq_of_toString_eq` — so does a printed failure, and where the fault is;
* `lines_toString_of_evaluate_eq_error` — a failure is drawn in the three lines that are promised
  exactly if the text that was read is a single line.
-/

namespace Formula

/-! ## Lines and columns -/

namespace Text

/-- The lines of a text, without the line breaks between them. -/
def lines (text : List Char) : List (List Char) := text.splitOn '\n'

/-- The column of an offset: how many characters stand before it in its line. -/
def column (text : List Char) (offset : Nat) : Nat :=
  ((text.take offset).rtakeWhile (· ≠ '\n')).length

variable {text : List Char}

theorem lines_ne_nil (text : List Char) : lines text ≠ [] := List.splitOn_ne_nil '\n' text

theorem lines_append_newline_cons (first second : List Char) :
    lines (first ++ '\n' :: second) = lines first ++ lines second :=
  List.splitOn_append_cons_self first second

/-- Texts with the same lines are the same. -/
theorem lines_injective : Function.Injective lines :=
  Function.LeftInverse.injective (g := List.intercalate ['\n']) fun _ => List.intercalate_splitOn _

/-- A text is a line of its own exactly if there is no line break in it. -/
theorem lines_eq_self_iff : lines text = [text] ↔ '\n' ∉ text := by
  refine ⟨fun h hmem => ?_, List.splitOn_eq_singleton⟩
  obtain ⟨first, second, rfl⟩ := List.append_of_mem hmem
  have hlength := congrArg List.length h
  have hfirst := List.length_pos_iff.2 (lines_ne_nil first)
  have hsecond := List.length_pos_iff.2 (lines_ne_nil second)
  rw [lines_append_newline_cons, List.length_append, List.length_singleton] at hlength
  omega

/-- The column of an offset is the offset itself as long as there is no line break before it. -/
theorem column_eq_self_iff {offset : Nat} (h : offset ≤ text.length) :
    column text offset = offset ↔ '\n' ∉ text.take offset := by
  have hself : (text.take offset).rtakeWhile (· ≠ '\n') = text.take offset ↔
      '\n' ∉ text.take offset := by
    simp [List.rtakeWhile_eq_self_iff, List.forall_mem_ne']
  have hlength : (text.take offset).length = offset := List.length_take_of_le h
  rw [← hself, column]
  refine ⟨fun hcolumn => ?_, fun heq => (congrArg List.length heq).trans hlength⟩
  exact (List.rtakeWhile_suffix _ _).eq_of_length (hcolumn.trans hlength.symm)

end Text

/-! ## Messages -/

namespace Fault

/-- The ways in which messages begin. -/
inductive Wording where
  | noInput
  | symbol
  | secondDot
  | missingFraction
  | adjacentDigit
  | unmatchedBracket
  | unknownFunction
  | incomplete
deriving DecidableEq

namespace Wording

/-- The words themselves, up to what is quoted. -/
def text : Wording → String
  | noInput => "No input"
  | symbol => "Unexpected symbol '"
  | secondDot => "Unexpected character '.'"
  | missingFraction => "Expected digit after decimal dot"
  | adjacentDigit => "Unexpected digit"
  | unmatchedBracket => "Mismatched bracket found"
  | unknownFunction => "Unknown function '"
  | incomplete => "Invalid expression"

/-- All wordings. -/
def all : List Wording :=
  [noInput, symbol, secondDot, missingFraction, adjacentDigit, unmatchedBracket, unknownFunction,
    incomplete]

theorem mem_all (w : Wording) : w ∈ all := by
  cases w <;> decide

/-- No wording is the beginning of another. -/
theorem eq_of_prefix {w w' : Wording} (h : w.text.toList <+: w'.text.toList) : w = w' := by
  have hall : ∀ w ∈ all, ∀ w' ∈ all, w.text.toList <+: w'.text.toList → w = w' := by
    decide +kernel
  exact hall w (mem_all w) w' (mem_all w') h

theorem newline_not_mem_text (w : Wording) : '\n' ∉ w.text.toList := by
  cases w <;> simp [text]

end Wording

/-- How the message begins. -/
def wording : Fault → Wording
  | noInput => .noInput
  | strayCharacter _ | missingOperand _ | unknownSymbol _ => .symbol
  | secondDot => .secondDot
  | missingFraction => .missingFraction
  | adjacentDigit => .adjacentDigit
  | unmatchedBracket => .unmatchedBracket
  | unknownFunction _ => .unknownFunction
  | incomplete => .incomplete

/-- What the message quotes, and what it says behind that. -/
def quotation : Fault → List Char
  | strayCharacter c | unknownSymbol c => [c, '\'']
  | missingOperand op => op.symbol :: "'. Number expected".toList
  | unknownFunction name => name.toList ++ ['\'']
  | _ => []

theorem toList_message (fault : Fault) :
    fault.message.toList = fault.wording.text.toList ++ fault.quotation := by
  have hquote (words quoted rest : String) :
      (words ++ quoted ++ rest).toList = words.toList ++ (quoted.toList ++ rest.toList) := by
    simp only [String.toList_append, List.append_assoc]
  have hsymbol (c : Char) : c.toString.toList = [c] := String.toList_singleton c
  cases fault with
  | strayCharacter c | unknownSymbol c =>
      exact (hquote "Unexpected symbol '" c.toString "'").trans (by rw [hsymbol]; rfl)
  | missingOperand op =>
      exact (hquote "Unexpected symbol '" op.symbol.toString "'. Number expected").trans
        (by rw [hsymbol]; rfl)
  | unknownFunction name => exact hquote "Unknown function '" name "'"
  | _ => exact (List.append_nil _).symm

/-- A fault whose message is a line, and that its message tells from others: no line break is
quoted, and a symbol that is no operator reads like a stray character. -/
def IsLegible : Fault → Prop
  | strayCharacter c => c ≠ '\n'
  | unknownFunction name => '\n' ∉ name.toList
  | unknownSymbol _ => False
  | _ => True

namespace IsLegible

variable {f g : Fault}

theorem newline_not_mem_message (h : f.IsLegible) : '\n' ∉ f.message.toList := by
  rw [toList_message, List.mem_append, not_or]
  refine ⟨f.wording.newline_not_mem_text, ?_⟩
  cases f with
  | strayCharacter c => simpa [quotation] using Ne.symm h
  | unknownFunction name => simpa [quotation] using show '\n' ∉ name.toList from h
  | missingOperand op => cases op <;> decide
  | unknownSymbol symbol => exact h.elim
  | _ => exact List.not_mem_nil

/-- A message tells what the fault is. -/
theorem eq_of_message_eq (hf : f.IsLegible) (hg : g.IsLegible) (h : f.message = g.message) :
    f = g := by
  have hlist : f.wording.text.toList ++ f.quotation = g.wording.text.toList ++ g.quotation := by
    rw [← toList_message, ← toList_message, h]
  -- Both wordings begin the same message, so one of them begins the other.
  have hwording : f.wording = g.wording := by
    rcases List.prefix_or_prefix_of_prefix (List.prefix_append _ _)
      (hlist ▸ List.prefix_append g.wording.text.toList g.quotation) with hfg | hgf
    · exact Wording.eq_of_prefix hfg
    · exact (Wording.eq_of_prefix hgf).symm
  rw [hwording] at hlist
  have hquotation : f.quotation = g.quotation := List.append_cancel_left hlist
  cases f <;> cases g <;> cases hwording
  case strayCharacter.strayCharacter => exact congrArg _ (List.cons.inj hquotation).1
  case strayCharacter.missingOperand => cases (List.cons.inj hquotation).2
  case missingOperand.strayCharacter => cases (List.cons.inj hquotation).2
  case missingOperand.missingOperand op op' =>
    have hop := congrArg BinaryOp.ofSymbol? (List.cons.inj hquotation).1
    simpa using hop
  case unknownFunction.unknownFunction name name' =>
    exact congrArg _ (String.toList_inj.1 (List.append_cancel_right hquotation))
  case unknownSymbol.strayCharacter | unknownSymbol.missingOperand => exact hf.elim
  case strayCharacter.unknownSymbol | missingOperand.unknownSymbol |
      unknownSymbol.unknownSymbol => exact hg.elim
  all_goals rfl

end IsLegible

/-- Whatever shows in a text is legible. -/
theorem ShowsAt.isLegible {m : Bindings} {before behind : List Char} {fault : Fault}
    (h : fault.ShowsAt m before behind) : fault.IsLegible := by
  cases fault with
  | strayCharacter c =>
      rintro rfl
      exact absurd h.2.not_blank (by decide)
  | unknownFunction letters =>
      obtain ⟨⟨rest, -, hletters⟩, -⟩ := h
      exact fun hmem => absurd (hletters.isAlpha _ hmem) (by decide)
  | noInput | unknownSymbol symbol | incomplete => exact h.elim
  | _ => trivial

end Fault

/-! ## Printed failures -/

open Text

/-- The line that a message is printed in. -/
def Fault.headline (fault : Fault) : String := "Parser Error: " ++ fault.message

theorem Fault.toList_headline (fault : Fault) :
    fault.headline.toList = "Parser Error: ".toList ++ fault.message.toList :=
  String.toList_append

/-- The line with the caret. -/
def caretLine (offset : Nat) : List Char := List.replicate offset ' ' ++ ['^']

theorem newline_not_mem_caretLine (offset : Nat) : '\n' ∉ caretLine offset := by
  simp [caretLine]

/-- The caret stands in the column that the offset says. -/
theorem idxOf_caretLine (offset : Nat) : (caretLine offset).idxOf '^' = offset := by
  have hblank : '^' ∉ List.replicate offset ' ' := by simp
  rw [caretLine, List.idxOf_append_of_notMem hblank, List.length_replicate]
  rfl

theorem caretLine_injective : Function.Injective caretLine :=
  Function.LeftInverse.injective (g := List.idxOf '^') idxOf_caretLine

/-- The lines that a failure takes in print: one that says what is wrong and, if it has a place,
those of the text that was read and one that points into it. -/
def Failure.picture (failure : Failure) : List (List Char) :=
  failure.fault.headline.toList ::
    match failure.location with
    | none => []
    | some place => lines place.input.toList ++ [caretLine place.offset]

theorem Fault.IsLegible.newline_not_mem_headline {fault : Fault} (h : fault.IsLegible) :
    '\n' ∉ fault.headline.toList := by
  have hwords : '\n' ∉ "Parser Error: ".toList := by simp
  rw [Fault.toList_headline, List.mem_append, not_or]
  exact ⟨hwords, h.newline_not_mem_message⟩

/-- The line that says what is wrong tells the fault. -/
theorem Fault.IsLegible.eq_of_headline_eq {f g : Fault} (hf : f.IsLegible) (hg : g.IsLegible)
    (h : f.headline.toList = g.headline.toList) : f = g := by
  rw [Fault.toList_headline, Fault.toList_headline] at h
  exact hf.eq_of_message_eq hg (String.toList_inj.1 (List.append_cancel_left h))

namespace Failure

variable {failure failure' : Failure}

/-- A failure is printed in just these lines, whatever text it quotes. -/
theorem lines_toString (h : failure.fault.IsLegible) :
    lines (toString failure).toList = failure.picture := by
  obtain ⟨fault, location⟩ := failure
  have hheadline : lines fault.headline.toList = [fault.headline.toList] :=
    lines_eq_self_iff.2 h.newline_not_mem_headline
  cases location with
  | none =>
      have htext : toString (Failure.mk fault none) = fault.headline ++ "" := rfl
      rw [htext, String.append_empty, hheadline]
      rfl
  | some place =>
      have htext : toString (Failure.mk fault (some place)) =
          fault.headline ++ ("\n" ++ (place.input ++ "\n" ++
            String.ofList (List.replicate place.offset ' ') ++ "^")) := rfl
      have hlist : (toString (Failure.mk fault (some place))).toList =
          fault.headline.toList ++
            '\n' :: (place.input.toList ++ '\n' :: caretLine place.offset) := by
        simp [htext, caretLine]
      rw [hlist, lines_append_newline_cons, lines_append_newline_cons, hheadline,
        lines_eq_self_iff.2 (newline_not_mem_caretLine _)]
      rfl

/-- A printed failure tells what the fault is, and where it is in which text. -/
theorem eq_of_toString_eq (h : failure.fault.IsLegible) (h' : failure'.fault.IsLegible)
    (heq : toString failure = toString failure') : failure = failure' := by
  have hpicture : failure.picture = failure'.picture := by
    rw [← lines_toString h, heq, lines_toString h']
  obtain ⟨fault, location⟩ := failure
  obtain ⟨fault', location'⟩ := failure'
  obtain ⟨hheadline, hplace⟩ := List.cons.inj hpicture
  obtain rfl : fault = fault' := h.eq_of_headline_eq h' hheadline
  match location, location' with
  | none, none => rfl
  | none, some place => exact absurd hplace.symm (List.append_ne_nil_of_right_ne_nil _ (by simp))
  | some place, none => exact absurd hplace (List.append_ne_nil_of_right_ne_nil _ (by simp))
  | some ⟨input, offset⟩, some ⟨input', offset'⟩ =>
      -- The caret takes one line, so the lines of the texts are told from it.
      obtain ⟨hinput, hcaret⟩ := List.append_inj' hplace rfl
      obtain rfl : input = input' := String.toList_inj.1 (lines_injective hinput)
      obtain rfl : offset = offset' := caretLine_injective (List.cons.inj hcaret).1
      rfl

end Failure

/-! ## Failures of texts -/

variable {text : String} {m : Bindings} {failure : Failure}

/-- A text fails for what is wrong with it as a whole, or for what shows at a place in it. -/
theorem location_eq_none_or_showsAt (h : evaluate text m = .error failure) :
    failure.location = none ∧ failure.fault.IsLegible ∨
      ∃ before behind, trimmed text = before ++ behind ∧
        failure.location = some ⟨String.ofList (trimmed text), before.length⟩ ∧
        failure.fault.ShowsAt m before behind := by
  rcases evaluate_eq_error_iff.1 h with
    ⟨-, rfl⟩ | ⟨found, -, hread, rfl⟩ | ⟨p, fault, hconvert, heval, rfl⟩
  · exact .inl ⟨rfl, trivial⟩
  · obtain ⟨before, behind, htext, hoffset, hshows⟩ := exists_showsAt_of_ofText_eq_error hread
    exact .inr ⟨before, behind, htext, by rw [← hoffset]; rfl, hshows⟩
  · obtain rfl := eq_incomplete_of_eval_eq_error hconvert heval
    exact .inl ⟨rfl, trivial⟩

theorem isLegible_of_evaluate_eq_error (h : evaluate text m = .error failure) :
    failure.fault.IsLegible := by
  rcases location_eq_none_or_showsAt h with ⟨-, hlegible⟩ | ⟨before, behind, -, -, hshows⟩
  · exact hlegible
  · exact hshows.isLegible

/-- A place is one in the trimmed text. -/
theorem input_eq_and_offset_le (h : evaluate text m = .error failure) {place : Location}
    (hplace : failure.location = some place) :
    place.input = String.ofList (trimmed text) ∧ place.offset ≤ (trimmed text).length := by
  rcases location_eq_none_or_showsAt h with ⟨hnone, -⟩ | ⟨before, behind, htext, hsome, -⟩
  · rw [hnone] at hplace
    cases hplace
  · obtain rfl := Option.some.inj (hsome.symm.trans hplace)
    refine ⟨rfl, ?_⟩
    rw [htext, List.length_append]
    exact Nat.le_add_right _ _

/-- Two texts, under any bindings, that fail with the same printed failure fail for the same kind of
fault, with the same message, at the same place in the same trimmed text. -/
theorem kind_message_location_eq_of_toString_eq {text' : String} {m' : Bindings}
    {failure' : Failure} (h : evaluate text m = .error failure)
    (h' : evaluate text' m' = .error failure') (heq : toString failure = toString failure') :
    failure.fault.kind = failure'.fault.kind ∧ failure.fault.message = failure'.fault.message ∧
      failure.location = failure'.location := by
  obtain rfl : failure = failure' := Failure.eq_of_toString_eq
    (isLegible_of_evaluate_eq_error h) (isLegible_of_evaluate_eq_error h') heq
  exact ⟨rfl, rfl, rfl⟩

/-- A text that goes on like a printed failure, and the same with blanks around it. -/
theorem kind_message_location_eq_of_toString_eq_lookalike :
    let m : Bindings := {}
    let m' : Bindings := Std.TreeMap.ofList [("x", (4 : Binary32))]
    let text := "$\n^\nParser Error: Unexpected symbol '$'\n$\n^"
    let text' := " " ++ text ++ "\n"
    let failure : Failure := ⟨.strayCharacter '$', some ⟨text, 0⟩⟩
    let failure' : Failure := ⟨.strayCharacter '$', some ⟨String.ofList (trimmed text'), 0⟩⟩
    evaluate text m = .error failure ∧ evaluate text' m' = .error failure' ∧
      toString failure = toString failure' ∧
      failure.fault.kind = failure'.fault.kind ∧ failure.fault.message = failure'.fault.message ∧
        failure.location = failure'.location := by
  intro m m' text text' failure failure'
  have h : evaluate text m = .error failure := by decide +kernel
  have h' : evaluate text' m' = .error failure' := by decide +kernel
  have heq : toString failure = toString failure' := by decide +kernel
  exact ⟨h, h', heq, kind_message_location_eq_of_toString_eq h h' heq⟩

/-! ## Pictures -/

/-- A failure of a text is drawn as promised: its message in a single line, or in three lines the
message, the trimmed text, and a caret in the column of the character at fault. -/
structure Failure.IsDrawn (text : String) (failure : Failure) : Prop where
  single : failure.location = none → ∃ message, lines (toString failure).toList = [message]
  triple : ∀ place ∈ failure.location, ∃ message caret,
    lines (toString failure).toList = [message, trimmed text, caret] ∧ '^' ∈ caret ∧
      caret.idxOf '^' = column (trimmed text) place.offset

/-- A failure without a place is printed in one line. -/
theorem lines_toString_of_location_eq_none (h : evaluate text m = .error failure)
    (hnone : failure.location = none) :
    lines (toString failure).toList = [failure.fault.headline.toList] := by
  rw [Failure.lines_toString (isLegible_of_evaluate_eq_error h), Failure.picture, hnone]

/-- A failure with a place is printed in two lines more than the trimmed text has. -/
theorem lines_toString_of_location_eq_some (h : evaluate text m = .error failure)
    {place : Location} (hplace : failure.location = some place) :
    lines (toString failure).toList =
      failure.fault.headline.toList :: (lines (trimmed text) ++ [caretLine place.offset]) := by
  obtain ⟨hinput, -⟩ := input_eq_and_offset_le h hplace
  rw [Failure.lines_toString (isLegible_of_evaluate_eq_error h), Failure.picture, hplace]
  simp only [hinput, String.toList_ofList]

/-- The caret stands in the column of the character at fault exactly if no line ends before that. -/
theorem idxOf_caretLine_eq_column_iff (h : evaluate text m = .error failure) {place : Location}
    (hplace : failure.location = some place) :
    (caretLine place.offset).idxOf '^' = column (trimmed text) place.offset ↔
      '\n' ∉ (trimmed text).take place.offset := by
  obtain ⟨-, hoffset⟩ := input_eq_and_offset_le h hplace
  rw [idxOf_caretLine, eq_comm, column_eq_self_iff hoffset]

/-- A failure with a place is drawn as promised exactly if the text that was read is one line. -/
theorem isDrawn_iff (h : evaluate text m = .error failure) :
    failure.IsDrawn text ↔ (failure.location.isSome → '\n' ∉ trimmed text) := by
  cases hplace : failure.location with
  | none =>
      refine iff_of_true ⟨fun _ => ⟨_, lines_toString_of_location_eq_none h hplace⟩, ?_⟩ nofun
      rw [hplace]
      nofun
  | some place =>
      have hlines := lines_toString_of_location_eq_some h hplace
      constructor
      · rintro hdrawn -
        obtain ⟨message, caret, htriple, -⟩ := hdrawn.triple place hplace
        rw [hlines] at htriple
        have htext : lines (trimmed text) ++ [caretLine place.offset] = [trimmed text] ++ [caret] :=
          (List.cons.inj htriple).2
        exact lines_eq_self_iff.1 (List.append_inj' htext rfl).1
      · intro hbreak
        have hnone : '\n' ∉ trimmed text := hbreak rfl
        refine ⟨fun hlocation => absurd (hplace.symm.trans hlocation) nofun, ?_⟩
        rintro place' hplace'
        obtain rfl := Option.some.inj (hplace.symm.trans hplace')
        have hbefore : '\n' ∉ (trimmed text).take place.offset :=
          fun hmem => hnone (List.mem_of_mem_take hmem)
        rw [lines_eq_self_iff.2 hnone] at hlines
        have hcaret : '^' ∈ caretLine place.offset := by simp [caretLine]
        exact ⟨_, _, hlines, hcaret, (idxOf_caretLine_eq_column_iff h hplace).2 hbefore⟩

/-- What is printed of a failure is one line if it has no place; else a line, the lines of the
trimmed text, and a line with a caret, which is in the column of the character at fault exactly if
no line ends before that.  So the failure is drawn as promised exactly if it has no place or the
trimmed text is one line. -/
theorem lines_toString_of_evaluate_eq_error (h : evaluate text m = .error failure) :
    (failure.location = none →
      lines (toString failure).toList = [failure.fault.headline.toList]) ∧
    (∀ place ∈ failure.location,
      lines (toString failure).toList =
          failure.fault.headline.toList :: (lines (trimmed text) ++ [caretLine place.offset]) ∧
        ((caretLine place.offset).idxOf '^' = column (trimmed text) place.offset ↔
          '\n' ∉ (trimmed text).take place.offset)) ∧
    (failure.IsDrawn text ↔ (failure.location.isSome → '\n' ∉ trimmed text)) :=
  ⟨lines_toString_of_location_eq_none h,
    fun _ hplace =>
      ⟨lines_toString_of_location_eq_some h hplace, idxOf_caretLine_eq_column_iff h hplace⟩,
    isDrawn_iff h⟩

/-- A text in two lines with the fault in the second, and a text in one line with other blanks in
it. -/
theorem lines_toString_of_evaluate_eq_error_broken :
    let m : Bindings := {}
    let broken : Failure := ⟨.strayCharacter '$', some ⟨"1\n+ $", 4⟩⟩
    let whole : Failure := ⟨.adjacentDigit, some ⟨"2\t3", 2⟩⟩
    (evaluate "1\n+ $" m = .error broken ∧
      lines (toString broken).toList =
        [broken.fault.headline.toList, ['1'], ['+', ' ', '$'], [' ', ' ', ' ', ' ', '^']] ∧
      ¬broken.IsDrawn "1\n+ $") ∧
    (evaluate "\n2\t3" m = .error whole ∧ whole.IsDrawn "\n2\t3") := by
  intro m broken whole
  have hbroken : evaluate "1\n+ $" m = .error broken := by decide +kernel
  have hwhole : evaluate "\n2\t3" m = .error whole := by decide +kernel
  obtain ⟨-, hlines, hdrawn⟩ := lines_toString_of_evaluate_eq_error hbroken
  obtain ⟨-, -, hdrawn'⟩ := lines_toString_of_evaluate_eq_error hwhole
  have htext : lines (trimmed "1\n+ $") = [['1'], ['+', ' ', '$']] := by decide +kernel
  refine ⟨⟨hbroken, ?_, fun h => ?_⟩, hwhole, hdrawn'.2 fun _ => by decide +kernel⟩
  · rw [(hlines _ rfl).1, htext]
    rfl
  · exact absurd (hdrawn.1 h rfl) (by decide +kernel)

/-- Not every failure of a text is drawn as promised: the text may have line breaks in it. -/
theorem not_forall_isDrawn :
    ¬∀ (text : String) (m : Bindings) (failure : Failure), evaluate text m = .error failure →
      (∀ place ∈ failure.location, place.offset < 65536) → failure.IsDrawn text := by
  intro hall
  have hfails : evaluate "1\n+ $" {} = .error ⟨.strayCharacter '$', some ⟨"1\n+ $", 4⟩⟩ := by
    decide +kernel
  have hoffset : ∀ place ∈ some (Location.mk "1\n+ $" 4), place.offset < 65536 := by
    rintro place hplace
    obtain rfl := Option.some.inj hplace
    decide
  have hbreak := (isDrawn_iff hfails).1 (hall _ _ _ hfails hoffset) rfl
  exact absurd hbreak (by decide +kernel)

end Formula
