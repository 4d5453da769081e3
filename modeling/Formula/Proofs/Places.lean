import Formula.Proofs.Spelling

/-!
# Formula.Proofs.Places

Where the lexemes of a text stand in it.

A lexeme is placed by the number of characters in front of its run.  So the lexemes of a text that
is cut where two characters do not join are those of its parts, the later ones further on by the
length of the first part; and every lexeme is found again at its place, as a run that joins neither
what stands before nor what stands behind it.

* `PlacedLexeme.ofText_append` — a text is cut part by part, with places;
* `PlacedLexeme.ofText_run` — the first run of a text, and the rest;
* `PlacedLexeme.exists_isRun_of_ofText_eq` — what stands at the place of a lexeme, before it and
  behind it;
* `name_mem_ofText_iff` — the names in a text are its maximal runs of letters.
-/

namespace Formula

open Lexeme

/-! ## Runs in a text -/

namespace Lexeme

/-- The last character of a part and the first of the next do not join. -/
def Apart (first second : List Char) : Prop :=
  ∀ c ∈ first.getLast?, ∀ d ∈ second.head?, joins c d = false

@[simp] theorem apart_nil_left (second : List Char) : Apart [] second := by simp [Apart]

@[simp] theorem apart_nil_right (first : List Char) : Apart first [] := by simp [Apart]

/-- Only the first character of what follows counts. -/
theorem Apart.of_head?_eq {first second third : List Char} (h : Apart first second)
    (hhead : third.head? = second.head?) : Apart first third := by
  rwa [Apart, hhead]

/-- What stands further in front does not count. -/
theorem Apart.append_left {second third : List Char} (h : Apart second third) (hne : second ≠ [])
    (first : List Char) : Apart (first ++ second) third := by
  rwa [Apart, List.getLast?_append_of_ne_nil _ hne]

/-- The run `c :: rest` of characters that belong together, in a text in which it stands between
`before` and `behind`. -/
structure IsRun (before : List Char) (c : Char) (rest behind : List Char) : Prop where
  joined : (c :: rest).IsChain fun a b => joins a b
  apart_before : Apart before (c :: rest)
  apart_behind : Apart (c :: rest) behind

/-- Digits and dots join digits and dots, and nothing else. -/
theorem joins_eq_isNumeric {c d : Char} (h : isNumeric c) : joins c d = isNumeric d := by
  rw [Bool.eq_iff_iff]
  exact ⟨fun hjoins => isNumeric_of_joins hjoins h, fun hd => by simp [joins, h, hd]⟩

/-- Letters join letters, and nothing else. -/
theorem joins_eq_isAlpha {c d : Char} (h : c.isAlpha) : joins c d = d.isAlpha := by
  rw [Bool.eq_iff_iff]
  exact ⟨fun hjoins => isAlpha_of_joins hjoins h, fun hd => by simp [joins, h, hd]⟩

/-- Every text opens with a run. -/
theorem exists_isRun_cons (c : Char) (text : List Char) :
    ∃ rest behind, text = rest ++ behind ∧ IsRun [] c rest behind := by
  induction text generalizing c with
  | nil => exact ⟨[], [], rfl, by simp, by simp, by simp⟩
  | cons d text ih =>
      by_cases h : joins c d
      · obtain ⟨rest, behind, rfl, hrun⟩ := ih d
        have hjoined : (c :: d :: rest).IsChain fun a b => joins a b :=
          List.isChain_cons_cons.2 ⟨h, hrun.joined⟩
        refine ⟨d :: rest, behind, rfl, hjoined, by simp, ?_⟩
        exact hrun.apart_behind.append_left (List.cons_ne_nil d rest) [c]
      · refine ⟨[], d :: text, rfl, by simp, by simp, ?_⟩
        simpa [Apart] using h

/-- Texts are made run by run. -/
theorem run_induction {p : List Char → Prop} (nil : p [])
    (run : ∀ c rest behind, IsRun [] c rest behind → p behind → p (c :: rest ++ behind))
    (text : List Char) : p text := by
  cases text with
  | nil => exact nil
  | cons c text =>
      obtain ⟨rest, behind, rfl, hrun⟩ := exists_isRun_cons c text
      exact run c rest behind hrun (run_induction nil run behind)
termination_by text.length

/-- Nothing is taken from a text whose first character is not wanted. -/
theorem takeWhile_eq_nil {p : Char → Bool} {text : List Char} (h : ∀ c ∈ text.head?, p c = false) :
    text.takeWhile p = [] := by
  cases text with
  | nil => rfl
  | cons c text => exact List.takeWhile_cons_of_neg (by simp [h c rfl])

section Kind

variable {before rest behind : List Char} {c : Char} {p : Char → Bool}

/-- The characters of a run are of one kind, where characters join those of their own kind. -/
theorem IsRun.forall_mem (h : IsRun before c rest behind) (hp : ∀ a b, p a → joins a b = p b)
    (hc : p c) : ∀ d ∈ c :: rest, p d :=
  List.forall_mem_cons.2 ⟨hc, forall_mem_of_isChain (fun a b hab ha => hp a b ha ▸ hab) h.joined hc⟩

/-- What follows a run is of another kind. -/
theorem IsRun.head?_behind (h : IsRun before c rest behind) (hp : ∀ a b, p a → joins a b = p b)
    (hc : p c) : ∀ d ∈ behind.head?, p d = false := by
  intro d hd
  have hne : c :: rest ≠ [] := List.cons_ne_nil c rest
  have hlast := h.apart_behind _ (List.getLast?_eq_some_getLast hne) d hd
  rwa [hp _ _ (h.forall_mem hp hc _ (List.getLast_mem hne))] at hlast

/-- What stands before a character that is cut off from it is of another kind. -/
theorem Apart.getLast?_before (h : Apart before (c :: rest)) (hp : ∀ a b, p a → joins a b = p b)
    (hc : p c) : ∀ d ∈ before.getLast?, p d = false := by
  intro d hd
  rw [← Bool.not_eq_true]
  intro hkind
  have hjoins := h d hd c rfl
  rw [hp d c hkind, hc] at hjoins
  contradiction

/-- The lexeme of a run is written as that run, stray characters aside. -/
theorem IsRun.spelling_eq (h : IsRun before c rest behind) {u : Lexeme}
    (hu : ofRun? c rest = some u) (hstray : ∀ d, u ≠ .stray d) :
    u.spelling = c :: rest ∧ u.IsUnit :=
  spelling_eq_of_ofChars? h.joined (show ofChars? (c :: rest) = some u from hu) hstray

/-- A run takes from the text all characters of its kind. -/
theorem IsRun.takeWhile_eq (h : IsRun before c rest behind) (hp : ∀ a b, p a → joins a b = p b)
    (hc : p c) : (c :: rest ++ behind).takeWhile p = c :: rest := by
  rw [List.takeWhile_append_of_pos (h.forall_mem hp hc), takeWhile_eq_nil (h.head?_behind hp hc),
    List.append_nil]

end Kind

/-- A run behind the first run of a text is a run of the whole text. -/
theorem IsRun.behind_run {before behind rest rest' : List Char} {c d : Char}
    (h : IsRun [] c rest (before ++ (d :: rest' ++ behind))) (h' : IsRun before d rest' behind) :
    IsRun (c :: rest ++ before) d rest' behind := by
  refine ⟨h'.joined, ?_, h'.apart_behind⟩
  cases before with
  | nil =>
      rw [List.append_nil]
      exact h.apart_behind.of_head?_eq rfl
  | cons e before => exact h'.apart_before.append_left (List.cons_ne_nil e before) _

end Lexeme

/-! ## Lexemes with their places -/

namespace PlacedLexeme

/-- A lexeme with `n` more characters in front of it. -/
def shift (n : Nat) (u : PlacedLexeme) : PlacedLexeme := ⟨n + u.offset, u.lexeme⟩

@[simp] theorem offset_shift (n : Nat) (u : PlacedLexeme) : (u.shift n).offset = n + u.offset := rfl

@[simp] theorem shift_zero (u : PlacedLexeme) : u.shift 0 = u := by
  simp only [shift, Nat.zero_add]

theorem shift_shift (n k : Nat) (u : PlacedLexeme) : (u.shift n).shift k = u.shift (k + n) := by
  simp only [shift, Nat.add_assoc]

@[simp] theorem ofText_nil : ofText [] = [] := rfl

theorem ofRun?_map_add (n : Nat) (run : List (Char × Nat)) :
    ofRun? (run.map fun p => (p.1, n + p.2)) = (ofRun? run).map (shift n) := by
  cases run with
  | nil => rfl
  | cons p run => cases h : Lexeme.ofRun? p.1 (run.map Prod.fst) <;>
        simp [ofRun?, Function.comp_def, h, shift]

/-- A text is cut part by part, where the parts do not join. -/
theorem ofText_append {first second : List Char} (h : Apart first second) :
    ofText (first ++ second) = ofText first ++ (ofText second).map (shift first.length) := by
  have hapart : ∀ p ∈ first.zipIdx.getLast?, ∀ q ∈ (second.zipIdx first.length).head?,
      joins p.1 q.1 = false := by
    intro p hp q hq
    rw [List.getLast?_zipIdx] at hp
    rw [List.head?_zipIdx] at hq
    obtain ⟨c, hc, rfl⟩ := Option.map_eq_some_iff.1 hp
    obtain ⟨d, hd, rfl⟩ := Option.map_eq_some_iff.1 hq
    exact h c hc d hd
  have hsecond : second.zipIdx first.length =
      second.zipIdx.map fun p => (p.1, first.length + p.2) := List.zipIdx_eq_map_add
  have hshift : ofRun? ∘ List.map (fun p : Char × Nat => (p.1, first.length + p.2)) =
      fun run => (ofRun? run).map (shift first.length) :=
    funext (ofRun?_map_add first.length)
  rw [ofText, List.zipIdx_append, Nat.zero_add, List.splitBy_append hapart,
    List.filterMap_append, hsecond, splitBy_map, List.filterMap_map, hshift,
    ← List.map_filterMap]
  rfl

/-- The lexemes of a text are that of its first run, unless it is blank, and those of the rest. -/
theorem ofText_run {c : Char} {rest behind : List Char} (h : IsRun [] c rest behind) :
    ofText (c :: rest ++ behind) =
      (Lexeme.ofRun? c rest).toList.map (mk 0) ++
        (ofText behind).map (shift (rest.length + 1)) := by
  have hjoined : (c :: rest).zipIdx.IsChain fun p q => joins p.1 q.1 := by
    rw [← List.isChain_map (R := fun a b => joins a b) Prod.fst, List.zipIdx_map_fst]
    exact h.joined
  have hfirst : ofText (c :: rest) = (Lexeme.ofRun? c rest).toList.map (mk 0) := by
    rw [ofText, List.splitBy_of_isChain (by simp) hjoined]
    cases hu : Lexeme.ofRun? c rest <;> simp [ofRun?, hu]
  rw [ofText_append h.apart_behind, hfirst, List.length_cons]

/-- A lexeme stands at its place in the text, between two parts that do not join it.  The lexemes
before and behind it are those of the parts. -/
theorem exists_isRun_of_ofText_eq {text : List Char} {front back : List PlacedLexeme}
    {u : PlacedLexeme} (h : ofText text = front ++ u :: back) :
    ∃ before c rest behind, text = before ++ (c :: rest ++ behind) ∧ IsRun before c rest behind ∧
      Lexeme.ofRun? c rest = some u.lexeme ∧ u.offset = before.length ∧ ofText before = front := by
  induction text using run_induction generalizing front u back with
  | nil => simp at h
  | run c rest behind hrun ih =>
      rw [ofText_run hrun] at h
      -- What stands at `u` behind the first run, if it is not the lexeme of that run.
      have hlater : ∀ front₁ front₂, front = front₁ ++ front₂ →
          (Lexeme.ofRun? c rest).toList.map (mk 0) = front₁ →
          (ofText behind).map (shift (rest.length + 1)) = front₂ ++ u :: back →
          ∃ before d rest' behind', c :: rest ++ behind = before ++ (d :: rest' ++ behind') ∧
            IsRun before d rest' behind' ∧ Lexeme.ofRun? d rest' = some u.lexeme ∧
            u.offset = before.length ∧ ofText before = front := by
        intro front₁ front₂ hfront hfirst hsecond
        obtain ⟨front', tail, hbehind, rfl, htail⟩ := List.map_eq_append_iff.1 hsecond
        obtain ⟨w, back', rfl, rfl, rfl⟩ := List.map_eq_cons_iff.1 htail
        obtain ⟨before, d, rest', behind', rfl, hrun', hlexeme, hoffset, hbefore⟩ := ih hbehind
        have hapart : Apart (c :: rest) before := by
          cases before with
          | nil => simp
          | cons e before => exact hrun.apart_behind.of_head?_eq rfl
        refine ⟨c :: rest ++ before, d, rest', behind', by simp, hrun.behind_run hrun', hlexeme,
          ?_, ?_⟩
        · simp only [offset_shift, hoffset, List.cons_append, List.length_cons, List.length_append]
          omega
        · rw [ofText_run ⟨hrun.joined, hrun.apart_before, hapart⟩, hbefore, hfirst, hfront]
      cases hu : Lexeme.ofRun? c rest with
      | none => exact hlater [] front rfl (by simp [hu]) (by simpa [hu] using h)
      | some lexeme =>
          simp only [hu, Option.toList_some, List.map_cons, List.map_nil, List.singleton_append] at h
          cases front with
          | nil =>
              obtain ⟨rfl, -⟩ := List.cons.inj h
              exact ⟨[], c, rest, behind, rfl, hrun, hu, rfl, rfl⟩
          | cons w front =>
              obtain ⟨rfl, hbehind⟩ := List.cons.inj h
              exact hlater [⟨0, lexeme⟩] front rfl (by simp [hu]) hbehind

end PlacedLexeme

/-! ## Runs of letters -/

/-- `letters` are letters, with no further letter right before or right behind them. -/
structure IsLetterRun (before : List Char) (letters : String) (behind : List Char) : Prop where
  ne_empty : letters ≠ ""
  isAlpha : ∀ c ∈ letters.toList, c.isAlpha
  not_before : ∀ c ∈ before.getLast?, c.isAlpha = false
  not_behind : ∀ c ∈ behind.head?, c.isAlpha = false

/-- `letters` is a maximal run of letters of the text. -/
def HasLetterRun (text : List Char) (letters : String) : Prop :=
  ∃ before behind, text = before ++ (letters.toList ++ behind) ∧ IsLetterRun before letters behind

/-- What is no letter does not join a letter. -/
theorem joins_eq_false_of_isAlpha {c d : Char} (hc : c.isAlpha = false) (hd : d.isAlpha) :
    joins c d = false := by
  simp [joins, hc, isNumeric_eq_false_of_isAlpha hd]

/-- The run of a name is a maximal run of letters. -/
theorem isLetterRun_of_isRun {before rest behind : List Char} {c : Char} {letters : String}
    (h : IsRun before c rest behind) (hname : Lexeme.ofRun? c rest = some (.name letters)) :
    letters.toList = c :: rest ∧ IsLetterRun before letters behind := by
  obtain ⟨hspelling, hne, halpha⟩ := h.spelling_eq hname (by simp)
  have hletters : letters.toList = c :: rest := hspelling
  have hc : c.isAlpha := halpha c (hletters ▸ List.mem_cons_self)
  exact ⟨hletters, hne, halpha, h.apart_before.getLast?_before (fun _ _ => joins_eq_isAlpha) hc,
    h.head?_behind (fun _ _ => joins_eq_isAlpha) hc⟩

/-- A run of letters opens with one. -/
theorem IsLetterRun.exists_cons {before behind : List Char} {letters : String}
    (h : IsLetterRun before letters behind) :
    ∃ c rest, letters.toList = c :: rest ∧ c.isAlpha := by
  obtain ⟨c, rest, hletters⟩ := List.exists_cons_of_ne_nil
    fun hnil => h.ne_empty (String.toList_eq_nil_iff.1 hnil)
  exact ⟨c, rest, hletters, h.isAlpha c (hletters ▸ List.mem_cons_self)⟩

/-- A run of letters takes from the text all letters that it opens with. -/
theorem IsLetterRun.takeWhile_eq {before behind : List Char} {letters : String}
    (h : IsLetterRun before letters behind) :
    (letters.toList ++ behind).takeWhile Char.isAlpha = letters.toList := by
  rw [List.takeWhile_append_of_pos h.isAlpha, takeWhile_eq_nil h.not_behind, List.append_nil]

/-- The first run of a text that opens with a run of letters is that one. -/
theorem IsLetterRun.eq_of_isRun {before behind behind' rest : List Char} {c : Char}
    {letters : String} (h : IsLetterRun before letters behind) (hrun : IsRun [] c rest behind')
    (htext : letters.toList ++ behind = c :: rest ++ behind') : letters.toList = c :: rest := by
  obtain ⟨d, tail, hletters, hd⟩ := h.exists_cons
  obtain rfl : d = c := by
    rw [hletters] at htext
    exact (List.cons.inj htext).1
  rw [← h.takeWhile_eq, htext, hrun.takeWhile_eq (fun _ _ => joins_eq_isAlpha) hd]

/-- A maximal run of letters is cut out of its text. -/
theorem IsLetterRun.apart {before behind : List Char} {letters : String}
    (h : IsLetterRun before letters behind) :
    Apart before (letters.toList ++ behind) ∧ Apart letters.toList behind := by
  obtain ⟨e, rest, hletters, he⟩ := h.exists_cons
  refine ⟨fun c hc d hd => ?_, fun c hc d hd => ?_⟩
  · rw [hletters] at hd
    obtain rfl : e = d := Option.some.inj hd
    exact joins_eq_false_of_isAlpha (h.not_before c hc) he
  · rw [joins_eq_isAlpha (h.isAlpha c (List.mem_of_mem_getLast? hc)), h.not_behind d hd]

/-- The names in a text are its maximal runs of letters. -/
theorem name_mem_ofText_iff {text : List Char} {letters : String} :
    .name letters ∈ Lexeme.ofText text ↔ HasLetterRun text letters := by
  constructor
  · intro h
    rw [← PlacedLexeme.map_lexeme_ofText] at h
    obtain ⟨u, hu, hname⟩ := List.mem_map.1 h
    obtain ⟨front, back, hsplit⟩ := List.append_of_mem hu
    obtain ⟨before, c, rest, behind, rfl, hrun, hlexeme, -, -⟩ :=
      PlacedLexeme.exists_isRun_of_ofText_eq hsplit
    obtain ⟨hletters, hmaximal⟩ := isLetterRun_of_isRun hrun (hname ▸ hlexeme)
    exact ⟨before, behind, by rw [hletters], hmaximal⟩
  · rintro ⟨before, behind, rfl, hmaximal⟩
    obtain ⟨hbefore, hbehind⟩ := hmaximal.apart
    have hname : Lexeme.ofText letters.toList = [.name letters] :=
      ofText_spelling (u := .name letters) ⟨hmaximal.ne_empty, hmaximal.isAlpha⟩
    rw [ofText_append hbefore, ofText_append hbehind, hname]
    simp

end Formula
