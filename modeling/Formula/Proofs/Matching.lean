import Formula.Proofs.Faults

/-!
# Formula.Proofs.Matching

Which brackets a text leaves open.

Matching is a matter of characters alone: a pair of brackets matches if what stands between them
nests.  `LeavesOpen` cuts a text at the brackets that match nothing.  Reading keeps just those: at
every point they are the brackets open there.  So the prefixes of a text that is read never have
more closing brackets than opening ones; a closing bracket at fault ends the first prefix that has;
and an opening bracket at fault is the last one that matches nothing.

* `LeavesOpen.isLastUnmatched` — the innermost bracket left open is the last that matches nothing;
* `leavesOpen_of_read` — the open brackets of a reading are those that the text leaves open;
* `toPostfix_brackets` — mismatched brackets are found exactly, and where they are.
-/

namespace Formula

open Infix Lexeme

/-! ## Matching brackets -/

/-- Every bracket in the text matches one in it. -/
inductive Nests : List Char → Prop
  | nil : Nests []
  | other {c : Char} {text : List Char} : c ≠ '(' → c ≠ ')' → Nests text → Nests (c :: text)
  | group {inside behind : List Char} :
      Nests inside → Nests behind → Nests ('(' :: (inside ++ ')' :: behind))

/-- The opening bracket at the offset matches a closing one: what stands between them nests. -/
def IsMatched (text : List Char) (offset : Nat) : Prop :=
  ∃ before inside behind, text = before ++ '(' :: (inside ++ ')' :: behind) ∧
    before.length = offset ∧ Nests inside

/-- At the offset stands the last opening bracket that matches nothing. -/
structure IsLastUnmatched (text : List Char) (offset : Nat) : Prop where
  isOpening : text[offset]? = some '('
  not_isMatched : ¬IsMatched text offset
  isMatched_of_lt : ∀ i, offset < i → text[i]? = some '(' → IsMatched text i

/-- No prefix has more closing brackets than opening ones. -/
def NeverOvercloses (text : List Char) : Prop :=
  ∀ n, (text.take n).count ')' ≤ (text.take n).count '('

/-- The character at the offset ends the first prefix with more closing brackets than opening
ones. -/
structure IsFirstExcess (text : List Char) (offset : Nat) : Prop where
  excess : (text.take (offset + 1)).count '(' < (text.take (offset + 1)).count ')'
  before : ∀ n ≤ offset, (text.take n).count ')' ≤ (text.take n).count '('

/-- No prefix has more closing brackets than opening ones, and the text has as many. -/
def Balances (text : List Char) : Prop :=
  NeverOvercloses text ∧ text.count '(' = text.count ')'

/-! ## Counting brackets -/

/-- The prefix of a text that one character ends. -/
theorem take_length_succ_append_cons (before : List Char) (c : Char) (behind : List Char) :
    (before ++ c :: behind).take (before.length + 1) = before ++ [c] := by
  rw [List.take_length_add_append]
  rfl

namespace NeverOvercloses

theorem nil : NeverOvercloses [] := fun n => by simp

theorem append {first second : List Char} (h : NeverOvercloses first)
    (h' : NeverOvercloses second) : NeverOvercloses (first ++ second) := by
  intro n
  have hfirst := h n
  have hsecond := h' (n - first.length)
  rw [List.take_append, List.count_append, List.count_append]
  omega

/-- Any character but a closing bracket may be written in front. -/
theorem cons {c : Char} {text : List Char} (hc : c ≠ ')') (h : NeverOvercloses text) :
    NeverOvercloses (c :: text) := by
  intro n
  cases n with
  | zero => simp
  | succ n =>
      rw [List.take_succ_cons, List.count_cons_of_ne hc]
      exact (h n).trans List.count_le_count_cons

/-- A bracket may be closed behind one that is open. -/
theorem group {inside : List Char} (h : NeverOvercloses inside) :
    NeverOvercloses ('(' :: (inside ++ [')'])) := by
  intro n
  cases n with
  | zero => simp
  | succ n =>
      have hinside := h n
      have hclosing : ([')'].take (n - inside.length)).count ')' ≤ 1 :=
        (List.take_sublist _ _).count_le ')'
      simp only [List.take_succ_cons, List.take_append, List.count_cons, List.count_append,
        beq_self_eq_true, if_true]
      simp only [show ('(' == ')') = false from rfl, Bool.false_eq_true, if_false]
      omega

end NeverOvercloses

namespace Nests

variable {first second text : List Char}

theorem append (h : Nests first) (h' : Nests second) : Nests (first ++ second) := by
  induction h with
  | nil => exact h'
  | other hopen hclose _ ih => exact .other hopen hclose ih
  | @group inside behind hinside _ _ ih =>
      rw [List.cons_append, List.append_assoc, List.cons_append]
      exact .group hinside ih

/-- A text without brackets nests. -/
theorem of_forall_ne (h : ∀ c ∈ text, c ≠ '(' ∧ c ≠ ')') : Nests text := by
  induction text with
  | nil => exact .nil
  | cons c text ih =>
      rw [List.forall_mem_cons] at h
      exact .other h.1.1 h.1.2 (ih h.2)

theorem balances (h : Nests text) : Balances text := by
  induction h with
  | nil => exact ⟨.nil, rfl⟩
  | other hopen hclose _ ih =>
      refine ⟨ih.1.cons hclose, ?_⟩
      rw [List.count_cons_of_ne hopen, List.count_cons_of_ne hclose, ih.2]
  | @group inside behind _ _ ihinside ihbehind =>
      have hsplit : '(' :: (inside ++ ')' :: behind) = '(' :: (inside ++ [')']) ++ behind := by simp
      refine ⟨hsplit ▸ ihinside.1.group.append ihbehind.1, ?_⟩
      have := ihinside.2
      have := ihbehind.2
      simp [List.count_append]
      omega

end Nests

/-! ## Matched brackets -/

namespace IsMatched

variable {text : List Char} {offset : Nat}

theorem append_left (h : IsMatched text offset) (before : List Char) :
    IsMatched (before ++ text) (before.length + offset) := by
  obtain ⟨front, inside, behind, rfl, rfl, hinside⟩ := h
  exact ⟨before ++ front, inside, behind, by simp, List.length_append, hinside⟩

theorem cons (h : IsMatched text offset) (c : Char) : IsMatched (c :: text) (offset + 1) := by
  rw [Nat.add_comm]
  exact h.append_left [c]

theorem append_right (h : IsMatched text offset) (behind : List Char) :
    IsMatched (text ++ behind) offset := by
  obtain ⟨before, inside, back, rfl, rfl, hinside⟩ := h
  exact ⟨before, inside, back ++ behind, by simp, rfl, hinside⟩

end IsMatched

/-- Every opening bracket of a text that nests matches. -/
theorem Nests.isMatched {text : List Char} (h : Nests text) {offset : Nat}
    (hopen : text[offset]? = some '(') : IsMatched text offset := by
  induction h generalizing offset with
  | nil => simp at hopen
  | @other c text hc _ _ ih =>
      cases offset with
      | zero => exact absurd (Option.some.inj hopen) hc
      | succ i => exact (ih hopen).cons c
  | @group inside behind hinside _ ihinside ihbehind =>
      cases offset with
      | zero => exact ⟨[], inside, behind, rfl, rfl, hinside⟩
      | succ i =>
          rw [List.getElem?_cons_succ, List.getElem?_append] at hopen
          split at hopen
          · exact ((ihinside hopen).append_right _).cons '('
          · next hlength =>
            obtain ⟨n, rfl⟩ := Nat.exists_eq_add_of_le (Nat.le_of_not_lt hlength)
            rw [Nat.add_sub_cancel_left] at hopen
            cases n with
            | zero => exact absurd (Option.some.inj hopen) (by decide)
            | succ n =>
                have hbehind := (ihbehind hopen).cons ')'
                exact (hbehind.append_left inside).cons '('

/-- No closing bracket behind an opening one matches it if what follows never overcloses. -/
theorem not_isMatched_of_neverOvercloses {before behind : List Char} (h : NeverOvercloses behind) :
    ¬IsMatched (before ++ '(' :: behind) before.length := by
  rintro ⟨front, inside, rest, htext, hlength, hinside⟩
  obtain ⟨-, hbehind⟩ := List.append_inj htext hlength.symm
  obtain rfl := (List.cons.inj hbehind).2
  have hprefix := h (inside.length + 1)
  rw [take_length_succ_append_cons, List.count_append, List.count_append,
    hinside.balances.2] at hprefix
  exact absurd hprefix (by simp)

/-! ## Brackets left open -/

/-- The offsets of the brackets that a text leaves open, innermost first.  All others match. -/
inductive LeavesOpen : List Char → List Nat → Prop
  | nests {text : List Char} : Nests text → LeavesOpen text []
  | opening {before behind : List Char} {outer : List Nat} :
      LeavesOpen before outer → Nests behind →
        LeavesOpen (before ++ '(' :: behind) (before.length :: outer)

namespace LeavesOpen

variable {text : List Char} {openings outer : List Nat} {k : Nat}

theorem append_nests (h : LeavesOpen text openings) {behind : List Char} (hbehind : Nests behind) :
    LeavesOpen (text ++ behind) openings := by
  cases h with
  | nests htext => exact .nests (htext.append hbehind)
  | opening hbefore hrest =>
      rw [List.append_assoc, List.cons_append]
      exact .opening hbefore (hrest.append hbehind)

/-- An opening bracket is the innermost one left open. -/
theorem append_opening (h : LeavesOpen text openings) :
    LeavesOpen (text ++ ['(']) (text.length :: openings) :=
  .opening h .nil

/-- A closing bracket matches the innermost one left open. -/
theorem append_closing (h : LeavesOpen text (k :: outer)) : LeavesOpen (text ++ [')']) outer := by
  cases h with
  | opening hbefore hbehind =>
      rw [List.append_assoc, List.cons_append]
      exact hbefore.append_nests (.group hbehind .nil)

theorem neverOvercloses (h : LeavesOpen text openings) : NeverOvercloses text := by
  induction h with
  | nests htext => exact htext.balances.1
  | opening _ hbehind ih => exact ih.append (hbehind.balances.1.cons (by decide))

/-- So many brackets are left open as there are more opening ones than closing ones. -/
theorem count_eq (h : LeavesOpen text openings) :
    text.count '(' = text.count ')' + openings.length := by
  induction h with
  | nests htext => exact htext.balances.2
  | opening _ hbehind ih =>
      have := hbehind.balances.2
      simp [List.count_append]
      omega

/-- The innermost bracket left open is the last that matches nothing. -/
theorem isLastUnmatched (h : LeavesOpen text (k :: outer)) : IsLastUnmatched text k := by
  cases h with
  | @opening before behind _ hbefore hbehind =>
      refine ⟨by simp, not_isMatched_of_neverOvercloses hbehind.balances.1, fun i hi hopen => ?_⟩
      obtain ⟨n, rfl⟩ := Nat.exists_eq_add_of_le (Nat.succ_le_of_lt hi)
      have hsplit : before ++ '(' :: behind = before ++ ['('] ++ behind := by simp
      have hlength : (before ++ ['(']).length = before.length + 1 := by simp
      rw [hsplit] at hopen ⊢
      rw [Nat.succ_eq_add_one, ← hlength] at hopen ⊢
      rw [List.getElem?_append_right (Nat.le_add_right _ _), Nat.add_sub_cancel_left] at hopen
      exact (hbehind.isMatched hopen).append_left _

/-- One more closing bracket is the first in excess if none is left open. -/
theorem isFirstExcess (h : LeavesOpen text []) (behind : List Char) :
    IsFirstExcess (text ++ ')' :: behind) text.length := by
  refine ⟨?_, fun n hn => ?_⟩
  · have hcount := h.count_eq
    rw [take_length_succ_append_cons, List.count_append, List.count_append, hcount]
    simp
  · rw [List.take_append_of_le_length hn]
    exact h.neverOvercloses n

end LeavesOpen

/-! ## The brackets of a reading -/

namespace Infix

variable {m : Bindings}

/-- A run that does not open with a bracket has none in it. -/
theorem nests_of_isRun {before rest behind : List Char} {c : Char} (h : IsRun before c rest behind)
    (hopen : c ≠ '(') (hclose : c ≠ ')') : Nests (c :: rest) := by
  have hjoins : ∀ a b, joins a b → (a ≠ '(' ∧ a ≠ ')') → b ≠ '(' ∧ b ≠ ')' := by
    intro a b hab _
    refine ⟨?_, ?_⟩ <;> rintro rfl
    all_goals
      rw [joins_eq_false_of_isLone_right (by decide)] at hab
      cases hab
  exact .of_forall_ne (List.forall_mem_cons.2
    ⟨⟨hopen, hclose⟩, forall_mem_of_isChain hjoins h.joined ⟨hopen, hclose⟩⟩)

/-- Reading the lexeme of a run keeps the brackets that are left open. -/
theorem leavesOpen_of_step {p q : Progress} {before rest behind : List Char} {c : Char}
    {lexeme : Lexeme} (hbefore : LeavesOpen before p.openings) (hrun : IsRun [] c rest behind)
    (hlexeme : Lexeme.ofRun? c rest = some lexeme) (h : step m p ⟨before.length, lexeme⟩ = .ok q) :
    LeavesOpen (before ++ c :: rest) q.openings := by
  have hspelling := hrun.spelling_eq hlexeme
  have hopenings := openings_of_step_eq_ok h
  cases lexeme with
  | opening =>
      obtain ⟨rfl, rfl⟩ : '(' = c ∧ [] = rest := by simpa [spelling] using (hspelling (by simp)).1
      rw [hopenings]
      exact hbefore.append_opening
  | closing =>
      obtain ⟨rfl, rfl⟩ : ')' = c ∧ [] = rest := by simpa [spelling] using (hspelling (by simp)).1
      cases hopen : p.openings with
      | nil => simp [step, hopen] at h
      | cons k outer =>
          rw [hopenings]
          simp only [hopen, List.tail_cons] at hbefore ⊢
          exact hbefore.append_closing
  | stray d => cases h
  -- No other lexeme has a bracket in it.
  | _ =>
      rw [hopenings]
      refine hbefore.append_nests (nests_of_isRun hrun ?_ ?_) <;> rintro rfl
      · cases show some Lexeme.opening = some _ from hlexeme
      · cases show some Lexeme.closing = some _ from hlexeme

/-- Reading on behind a text keeps the brackets that are left open. -/
theorem leavesOpen_of_read_shift {p q : Progress} {before text : List Char}
    (hbefore : LeavesOpen before p.openings)
    (h : read m p ((PlacedLexeme.ofText text).map (.shift before.length)) = .ok q) :
    LeavesOpen (before ++ text) q.openings := by
  -- Run by run: what has been read moves from `text` to the end of `before`.
  induction text using run_induction generalizing before p with
  | nil =>
      obtain rfl := Except.ok.inj h
      rwa [List.append_nil]
  | run c rest behind hrun ih =>
      have hshift : ((PlacedLexeme.ofText behind).map (PlacedLexeme.shift (rest.length + 1))).map
          (PlacedLexeme.shift before.length) =
            (PlacedLexeme.ofText behind).map (PlacedLexeme.shift (before ++ c :: rest).length) := by
        rw [List.map_map, List.length_append, List.length_cons]
        exact List.map_congr_left fun u _ => u.shift_shift _ _
      rw [PlacedLexeme.ofText_run hrun, List.map_append, hshift] at h
      rw [← List.append_assoc]
      cases hlexeme : Lexeme.ofRun? c rest with
      | none =>
          have hblank := ofRun?_eq_none_iff.1 hlexeme
          refine ih (hbefore.append_nests (nests_of_isRun hrun ?_ ?_)) (by simpa [hlexeme] using h)
          all_goals
            rintro rfl
            exact absurd hblank (by decide)
      | some lexeme =>
          have hfirst : PlacedLexeme.shift before.length ⟨0, lexeme⟩ = ⟨before.length, lexeme⟩ :=
            rfl
          simp only [hlexeme, Option.toList_some, List.map_cons, List.map_nil, hfirst,
            List.singleton_append, read_cons_eq_ok_iff] at h
          obtain ⟨p', hstep, hread⟩ := h
          exact ih (leavesOpen_of_step hbefore hrun hlexeme hstep) hread

/-- The open brackets of a reading are those that the text leaves open. -/
theorem leavesOpen_of_read {text : List Char} {q : Progress}
    (h : read m {} (PlacedLexeme.ofText text) = .ok q) : LeavesOpen text q.openings := by
  have hnil : LeavesOpen [] (Progress.openings {}) := .nests .nil
  have hshift : (PlacedLexeme.ofText text).map (PlacedLexeme.shift ([] : List Char).length) =
      PlacedLexeme.ofText text :=
    (List.map_congr_left fun u _ => u.shift_zero).trans (List.map_id _)
  exact leavesOpen_of_read_shift hnil (hshift.symm ▸ h)

/-- A bracket that is at fault where a text is read on is a closing one, with no bracket open. -/
theorem closing_of_faults {s : State} {text : List Char} {found : PlacedFault}
    (h : Faults m s text found) (hkind : found.fault.kind = .mismatchedBracket) :
    s.level = 0 ∧ found.offset = 0 ∧ ∃ behind, text = ')' :: behind := by
  cases h with
  | unmatchedBracket => exact ⟨rfl, rfl, _, rfl⟩
  | malformed hmalformed => cases hmalformed <;> cases hkind
  | _ => cases hkind

/-- What is wrong with a text, if it is a bracket: a closing one that is the first in excess, or an
opening one that is the last to match nothing. -/
theorem mismatch_of_ofText_eq_error {text : List Char} {found : PlacedFault}
    (h : Infix.ofText m text = .error found) (hkind : found.fault.kind = .mismatchedBracket) :
    (text[found.offset]? = some ')' ∧ IsFirstExcess text found.offset) ∨
      (text[found.offset]? = some '(' ∧ NeverOvercloses text ∧
        IsLastUnmatched text found.offset) := by
  rcases Infix.ofText_eq_error_iff.1 h with hread | ⟨q, k, outer, hread, hopen, rfl⟩
  · obtain ⟨before, behind, q, fault, rfl, -, hbefore, hfault, rfl⟩ :=
      read_ofText_eq_error_iff.1 hread
    obtain ⟨hlevel, hoffset, behind, rfl⟩ := closing_of_faults hfault hkind
    have hleaves := leavesOpen_of_read hbefore
    rw [List.length_eq_zero_iff.1 hlevel] at hleaves
    rw [PlacedFault.offset_shift, hoffset, Nat.add_zero]
    exact .inl ⟨by simp, hleaves.isFirstExcess behind⟩
  · have hleaves := leavesOpen_of_read hread
    rw [hopen] at hleaves
    have hlast := hleaves.isLastUnmatched
    exact .inr ⟨hlast.isOpening, hleaves.neverOvercloses, hlast⟩

/-- The brackets of a text that has tokens balance. -/
theorem balances_of_ofText_eq_ok {text : List Char} {formula : Infix}
    (h : Infix.ofText m text = .ok formula) : Balances text := by
  rw [Infix.ofText] at h
  cases hread : read m {} (PlacedLexeme.ofText text) with
  | error found => simp [hread, bind, Except.bind] at h
  | ok q =>
      have hleaves := leavesOpen_of_read hread
      cases hopen : q.openings with
      | cons k outer => simp [hread, Progress.finish, hopen, bind, Except.bind] at h
      | nil =>
          rw [hopen] at hleaves
          exact ⟨hleaves.neverOvercloses, hleaves.count_eq⟩

end Infix

/-! ## Whole texts -/

/-- The brackets of a text that is converted balance; a bracket that is at fault is a closing one
that is the first in excess, or an opening one that is the last to match nothing; and where the
brackets do not balance, they are at fault, if nothing else is. -/
theorem toPostfix_brackets (text : String) (m : Bindings) :
    (∀ p, toPostfix text m = .ok p → Balances (trimmed text)) ∧
      (∀ failure, toPostfix text m = .error failure → failure.fault.kind = .mismatchedBracket →
        ∃ place, failure.location = some place ∧ place.input = String.ofList (trimmed text) ∧
          ((trimmed text)[place.offset]? = some ')' ∧ IsFirstExcess (trimmed text) place.offset ∨
            (trimmed text)[place.offset]? = some '(' ∧ NeverOvercloses (trimmed text) ∧
              IsLastUnmatched (trimmed text) place.offset)) ∧
      (¬Balances (trimmed text) →
        (∀ failure, toPostfix text m = .error failure → failure.fault.kind = .mismatchedBracket) →
          ∃ failure, toPostfix text m = .error failure ∧
            failure.fault.kind = .mismatchedBracket) := by
  have hsuccess : ∀ p, toPostfix text m = .ok p → Balances (trimmed text) := by
    intro p h
    cases hread : Infix.ofText m (trimmed text) with
    | ok formula => exact balances_of_ofText_eq_ok hread
    | error found =>
        unfold toPostfix at h
        split at h
        · cases h
        · rw [hread] at h
          cases h
  refine ⟨hsuccess, ?_, fun hbalance honly => ?_⟩
  · intro failure h hkind
    rcases toPostfix_eq_error_iff.1 h with ⟨-, rfl⟩ | ⟨found, -, hread, rfl⟩
    · cases hkind
    · exact ⟨_, rfl, rfl, mismatch_of_ofText_eq_error hread hkind⟩
  · cases h : toPostfix text m with
    | ok p => exact absurd (hsuccess p h) hbalance
    | error failure => exact ⟨failure, rfl, honly failure h⟩

/-- The first closing bracket in excess, with another fault behind it; and the last opening bracket
that matches nothing, with a matching pair before and behind it. -/
theorem toPostfix_brackets_both :
    let m : Bindings := {}
    let excess : Failure := ⟨.unmatchedBracket, some ⟨"(1)+2)-(3$", 5⟩⟩
    let unmatched : Failure := ⟨.unmatchedBracket, some ⟨"((1)+(2*(3)", 5⟩⟩
    (toPostfix " (1)+2)-(3$" m = .error excess ∧ excess.fault.kind = .mismatchedBracket ∧
      IsFirstExcess (trimmed " (1)+2)-(3$") 5) ∧
    (toPostfix "((1)+(2*(3) " m = .error unmatched ∧ unmatched.fault.kind = .mismatchedBracket ∧
      IsLastUnmatched (trimmed "((1)+(2*(3) ") 5) := by
  intro m excess unmatched
  have hexcess : toPostfix " (1)+2)-(3$" m = .error excess := by decide +kernel
  have hunmatched : toPostfix "((1)+(2*(3) " m = .error unmatched := by decide +kernel
  refine ⟨⟨hexcess, rfl, ?_⟩, hunmatched, rfl, ?_⟩
  · obtain ⟨place, hplace, -, hbracket⟩ := (toPostfix_brackets _ m).2.1 excess hexcess rfl
    obtain rfl := Option.some.inj hplace
    exact (hbracket.resolve_right fun h => absurd h.1 (by decide +kernel)).2
  · obtain ⟨place, hplace, -, hbracket⟩ := (toPostfix_brackets _ m).2.1 unmatched hunmatched rfl
    obtain rfl := Option.some.inj hplace
    exact (hbracket.resolve_left fun h => absurd h.1 (by decide +kernel)).2.2

end Formula
