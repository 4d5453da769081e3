import Mathlib.Data.List.SplitBy
import Formula.Evaluate

/-!
# Formula.Proofs.Spelling

Lexemes and the texts they are written as.

Reading cuts a text into lexemes; `Spells` is the way back, as a relation, since blanks may stand
between lexemes as one likes.  The cut is settled by neighbouring characters alone, so it can be
made at any place where two characters do not join, and blanks at the ends change nothing.

* `Lexeme.ofText_append` — a text is cut part by part, where the parts do not join;
* `Lexeme.ofText_trim` — trimming a text keeps its lexemes;
* `ofText_eq_of_spells` — a text that spells lexemes is cut into them;
* `spells_ofText` — a text without stray characters spells the lexemes it is cut into.
-/

namespace Formula

open Text

/-! ## Runs under a map -/

/-- Splitting commutes with a map that the relation looks through. -/
theorem splitBy_map (f : α → β) (r : β → β → Bool) (l : List α) :
    (l.map f).splitBy r = (l.splitBy fun a b => r (f a) (f b)).map (List.map f) := by
  have hne : [] ∉ l.splitBy fun a b => r (f a) (f b) := List.nil_notMem_splitBy _ _
  rw [List.splitBy_eq_iff]
  refine ⟨?_, ?_, ?_, ?_⟩
  · rw [← List.map_flatten, List.flatten_splitBy]
  · simp [hne]
  · intro run hrun
    obtain ⟨run, hmem, rfl⟩ := List.mem_map.1 hrun
    exact (List.isChain_map f).2 (List.isChain_of_mem_splitBy hmem)
  · rw [List.isChain_map]
    refine (List.isChain_getLast_head_splitBy _ l).imp ?_
    rintro first second ⟨hfirst, hsecond, h⟩
    refine ⟨by simpa using hfirst, by simpa using hsecond, ?_⟩
    rw [List.getLast_map, List.head_map]
    exact h

namespace Lexeme

/-! ## Lexemes without their places -/

/-- The lexeme of a run, if it is not blank. -/
def ofChars? : List Char → Option Lexeme
  | [] => none
  | c :: rest => ofRun? c rest

/-- The lexemes of a text in reading order. -/
def ofText (text : List Char) : List Lexeme := (text.splitBy joins).filterMap ofChars?

end Lexeme

/-- Placed lexemes are lexemes, with places. -/
theorem PlacedLexeme.map_lexeme_ofText (text : List Char) :
    (PlacedLexeme.ofText text).map (·.lexeme) = Lexeme.ofText text := by
  have hchars : ∀ run : List (Char × Nat),
      (PlacedLexeme.ofRun? run).map (·.lexeme) = Lexeme.ofChars? (run.map Prod.fst) := by
    intro run
    cases run with
    | nil => rfl
    | cons head rest =>
        simp [PlacedLexeme.ofRun?, Lexeme.ofChars?, Option.map_map, Function.comp_def]
  have htext : text = text.zipIdx.map Prod.fst := by simp
  rw [Lexeme.ofText, htext, splitBy_map, List.filterMap_map, PlacedLexeme.ofText,
    List.map_filterMap, ← htext]
  exact List.filterMap_congr fun run _ => hchars run

/-! ## Characters that join -/

/-- Blanks by their code points. -/
theorem isBlank_eq_false_iff {c : Char} :
    isBlank c = false ↔ ∀ range ∈ blankRanges, c.toNat < range.1 ∨ range.2 < c.toNat := by
  simp only [isBlank, List.any_eq_false, Bool.and_eq_true, decide_eq_true_eq, not_and_or, not_le]

/-- Letters by their code points. -/
theorem isAlpha_iff_toNat {c : Char} :
    c.isAlpha ↔ (65 ≤ c.toNat ∧ c.toNat ≤ 90) ∨ (97 ≤ c.toNat ∧ c.toNat ≤ 122) := by
  show (decide (65 ≤ c.val ∧ c.val ≤ 90) || decide (97 ≤ c.val) && decide (c.val ≤ 122)) = true ↔ _
  simp only [Bool.or_eq_true, Bool.and_eq_true, decide_eq_true_eq, UInt32.le_iff_toNat_le]
  rfl

/-- A letter is no blank. -/
theorem isBlank_eq_false_of_isAlpha {c : Char} (h : c.isAlpha) : isBlank c = false := by
  rw [isAlpha_iff_toNat] at h
  simp only [isBlank_eq_false_iff, blankRanges, List.forall_mem_cons, List.not_mem_nil,
    false_implies, implies_true, and_true]
  omega

/-- A digit is no blank. -/
theorem isBlank_eq_false_of_isDigit {c : Char} (h : c.isDigit) : isBlank c = false := by
  have hrange : 48 ≤ c.toNat ∧ c.toNat ≤ 57 := Char.isDigit_iff_toNat.1 h
  simp only [isBlank_eq_false_iff, blankRanges, List.forall_mem_cons, List.not_mem_nil,
    false_implies, implies_true, and_true]
  omega

/-- A letter is no digit. -/
theorem isDigit_eq_false_of_isAlpha {c : Char} (h : c.isAlpha) : c.isDigit = false := by
  rw [isAlpha_iff_toNat] at h
  rw [← Bool.not_eq_true]
  intro hdigit
  have hrange : 48 ≤ c.toNat ∧ c.toNat ≤ 57 := Char.isDigit_iff_toNat.1 hdigit
  omega

namespace Lexeme

/-- A character that neither names nor literals contain. -/
def IsLone (c : Char) : Prop := c.isAlpha = false ∧ isNumeric c = false

instance (c : Char) : Decidable (IsLone c) :=
  inferInstanceAs (Decidable (c.isAlpha = false ∧ isNumeric c = false))

/-- A blank stands alone. -/
theorem isLone_of_isBlank {c : Char} (h : isBlank c) : IsLone c := by
  constructor
  · rw [← Bool.not_eq_true]
    intro halpha
    rw [isBlank_eq_false_of_isAlpha halpha] at h
    contradiction
  · rw [← Bool.not_eq_true]
    intro hnumeric
    simp only [isNumeric, Bool.or_eq_true, beq_iff_eq] at hnumeric
    rcases hnumeric with hdigit | rfl
    · rw [isBlank_eq_false_of_isDigit hdigit] at h
      contradiction
    · exact absurd h (by decide)

theorem joins_eq_false_of_isLone_left {c : Char} (h : IsLone c) (d : Char) : joins c d = false := by
  simp [joins, h.1, h.2]

theorem joins_eq_false_of_isLone_right {d : Char} (h : IsLone d) (c : Char) :
    joins c d = false := by
  simp [joins, h.1, h.2]

/-! ## Cutting a text part by part -/

@[simp] theorem ofText_nil : ofText [] = [] := rfl

/-- Lexemes do not reach over a place where two characters do not join. -/
theorem ofText_append {first second : List Char}
    (h : ∀ c ∈ first.getLast?, ∀ d ∈ second.head?, joins c d = false) :
    ofText (first ++ second) = ofText first ++ ofText second := by
  rw [ofText, List.splitBy_append h, List.filterMap_append]
  rfl

/-- A lone character is cut out of any text. -/
theorem ofText_append_cons_of_isLone {c : Char} (h : IsLone c) (first second : List Char) :
    ofText (first ++ c :: second) = ofText first ++ (ofText [c] ++ ofText second) := by
  have hright : ofText ([c] ++ second) = ofText [c] ++ ofText second := by
    refine ofText_append fun d hd e _ => ?_
    obtain rfl : c = d := by simpa using hd
    exact joins_eq_false_of_isLone_left h e
  rw [ofText_append, ← List.singleton_append, hright]
  intro d _ e he
  obtain rfl : c = e := by simpa using he
  exact joins_eq_false_of_isLone_right h d

theorem ofText_cons_of_isLone {c : Char} (h : IsLone c) (text : List Char) :
    ofText (c :: text) = ofText [c] ++ ofText text := by
  simpa using ofText_append_cons_of_isLone h [] text

/-! ## Blanks -/

/-- A blank yields no lexeme. -/
theorem ofText_singleton_of_isBlank {c : Char} (h : isBlank c) : ofText [c] = [] := by
  show (ofRun? c []).toList = []
  simp [ofRun?, h]

theorem ofText_cons_of_isBlank {c : Char} (h : isBlank c) (text : List Char) :
    ofText (c :: text) = ofText text := by
  rw [ofText_cons_of_isLone (isLone_of_isBlank h), ofText_singleton_of_isBlank h, List.nil_append]

/-- Blanks in front of a text yield no lexeme. -/
theorem ofText_blank_append {blanks : List Char} (h : ∀ c ∈ blanks, isBlank c)
    (text : List Char) : ofText (blanks ++ text) = ofText text := by
  induction blanks with
  | nil => rfl
  | cons c blanks ih =>
      rw [List.cons_append, ofText_cons_of_isBlank (h c List.mem_cons_self)]
      exact ih fun d hd => h d (List.mem_cons_of_mem c hd)

theorem ofText_eq_nil_of_isBlank {blanks : List Char} (h : ∀ c ∈ blanks, isBlank c) :
    ofText blanks = [] := by
  simpa using ofText_blank_append h []

/-- Blanks behind a text yield no lexeme. -/
theorem ofText_append_blank {blanks : List Char} (h : ∀ c ∈ blanks, isBlank c)
    (text : List Char) : ofText (text ++ blanks) = ofText text := by
  cases blanks with
  | nil => rw [List.append_nil]
  | cons c blanks =>
      have hc := h c List.mem_cons_self
      have hrest : ofText blanks = [] :=
        ofText_eq_nil_of_isBlank fun d hd => h d (List.mem_cons_of_mem c hd)
      rw [ofText_append_cons_of_isLone (isLone_of_isBlank hc), ofText_singleton_of_isBlank hc,
        hrest, List.nil_append, List.append_nil]

/-- A run is without a lexeme only if it starts with a blank. -/
theorem ofRun?_eq_none_iff {c : Char} {rest : List Char} :
    ofRun? c rest = none ↔ isBlank c := by
  unfold ofRun?
  repeat' split
  all_goals simp_all

/-- A text yields no lexeme exactly if it is blank throughout. -/
theorem ofText_eq_nil_iff {text : List Char} : ofText text = [] ↔ ∀ c ∈ text, isBlank c := by
  refine ⟨fun h => ?_, ofText_eq_nil_of_isBlank⟩
  induction text with
  | nil => simp
  | cons c text ih =>
      have hc : isBlank c := by
        obtain ⟨run, runs, hruns⟩ := List.exists_cons_of_ne_nil
          (List.splitBy_ne_nil (r := joins).2 (List.cons_ne_nil c text))
        have hmem : run ∈ (c :: text).splitBy joins := hruns ▸ List.mem_cons_self
        have hnone : ofChars? run = none := List.filterMap_eq_nil_iff.1 h run hmem
        obtain ⟨d, rest, rfl⟩ := List.exists_cons_of_ne_nil (List.ne_nil_of_mem_splitBy hmem)
        have hd : d = c := by
          have hhead := List.head_head_splitBy joins (List.cons_ne_nil c text)
          simpa only [hruns, List.head_cons] using hhead
        exact hd ▸ ofRun?_eq_none_iff.1 hnone
      rw [ofText_cons_of_isBlank hc] at h
      exact List.forall_mem_cons.2 ⟨hc, ih h⟩

/-- A text is its trimmed part between blanks. -/
theorem exists_eq_append_trim_append (text : List Char) :
    ∃ lead trail, (∀ c ∈ lead, isBlank c) ∧ (∀ c ∈ trail, isBlank c) ∧
      text = lead ++ (trim text ++ trail) := by
  refine ⟨text.takeWhile isBlank, ((text.dropWhile isBlank).reverse.takeWhile isBlank).reverse,
    List.all_eq_true.1 List.all_takeWhile, fun c hc => ?_, ?_⟩
  · exact List.all_eq_true.1 List.all_takeWhile c (List.mem_reverse.1 hc)
  · rw [trim, ← List.reverse_append, List.takeWhile_append_dropWhile, List.reverse_reverse,
      List.takeWhile_append_dropWhile]

/-- Trimming keeps the lexemes. -/
theorem ofText_trim (text : List Char) : ofText (trim text) = ofText text := by
  obtain ⟨lead, trail, hlead, htrail, htext⟩ := exists_eq_append_trim_append text
  rw [htext, ofText_blank_append hlead, ofText_append_blank htrail, ← htext]

/-- Trimming leaves nothing exactly of a text without lexemes. -/
theorem trim_eq_nil_iff {text : List Char} : trim text = [] ↔ ofText text = [] := by
  refine ⟨fun h => by rw [← ofText_trim, h, ofText_nil], fun h => ?_⟩
  exact trim_append_blank (List.all_eq_true.2 (ofText_eq_nil_iff.1 h)) []

/-! ## Spellings -/

/-- The characters a lexeme is written with. -/
def spelling : Lexeme → List Char
  | literal run => run
  | name letters => letters.toList
  | operator op => [op.symbol]
  | opening => ['(']
  | closing => [')']
  | stray c => [c]

/-- A lexeme that starts as a literal does and holds digits and dots, is a name of letters, or is
an operator or a bracket. -/
def IsUnit : Lexeme → Prop
  | literal run => ∃ c rest, run = c :: rest ∧ c.isDigit ∧ ∀ d ∈ rest, isNumeric d
  | name letters => letters ≠ "" ∧ ∀ c ∈ letters.toList, c.isAlpha
  | operator _ | opening | closing => True
  | stray _ => False

/-- A letter is no part of a literal. -/
theorem isNumeric_eq_false_of_isAlpha {c : Char} (h : c.isAlpha) : isNumeric c = false := by
  have hdot : c ≠ '.' := by
    rintro rfl
    exact absurd h (by decide)
  simp [isNumeric, isDigit_eq_false_of_isAlpha h, hdot]

/-- What joins a letter is a letter. -/
theorem isAlpha_of_joins {c d : Char} (h : joins c d) (hc : c.isAlpha) : d.isAlpha := by
  simpa [joins, hc, isNumeric_eq_false_of_isAlpha hc] using h

/-- What joins a digit or a dot is a digit or a dot. -/
theorem isNumeric_of_joins {c d : Char} (h : joins c d) (hc : isNumeric c) : isNumeric d := by
  have halpha : c.isAlpha = false := by
    rw [← Bool.not_eq_true]
    intro halpha
    simp [isNumeric_eq_false_of_isAlpha halpha] at hc
  simpa [joins, hc, halpha] using h

/-- A property that characters hand on to those they join holds of a whole run. -/
theorem forall_mem_of_isChain {p : Char → Prop} (hp : ∀ c d, joins c d → p c → p d) {c : Char}
    {rest : List Char} (h : (c :: rest).IsChain fun a b => joins a b) (hc : p c) :
    ∀ d ∈ rest, p d := by
  induction rest generalizing c with
  | nil => simp
  | cons d rest ih =>
      rw [List.isChain_cons_cons] at h
      have hd : p d := hp c d h.1 hc
      exact List.forall_mem_cons.2 ⟨hd, ih h.2 hd⟩

/-- Nothing joins a lone character. -/
theorem eq_nil_of_isChain {c : Char} (hc : IsLone c) {rest : List Char}
    (h : (c :: rest).IsChain fun a b => joins a b) : rest = [] := by
  cases rest with
  | nil => rfl
  | cons d rest =>
      rw [List.isChain_cons_cons, joins_eq_false_of_isLone_left hc] at h
      exact absurd h.1 Bool.false_ne_true

theorem isLone_symbol (op : BinaryOp) : IsLone op.symbol := by
  cases op <;> decide

theorem isNumeric_of_isDigit {c : Char} (h : c.isDigit) : isNumeric c := by
  simp [isNumeric, h]

/-- The lexeme of a run is written as that run, stray characters aside. -/
theorem spelling_eq_of_ofChars? {run : List Char} (hrun : run.IsChain fun a b => joins a b)
    {u : Lexeme} (h : ofChars? run = some u) (hstray : ∀ c, u ≠ stray c) :
    u.spelling = run ∧ u.IsUnit := by
  cases run with
  | nil => cases h
  | cons c rest =>
      simp only [ofChars?, ofRun?] at h
      split at h
      · cases h
      split at h
      · next hdigit =>
        cases h
        exact ⟨rfl, c, rest, rfl, hdigit, forall_mem_of_isChain
          (fun _ _ => isNumeric_of_joins) hrun (isNumeric_of_isDigit hdigit)⟩
      split at h
      · next halpha =>
        cases h
        refine ⟨String.toList_ofList, ?_, ?_⟩
        · simp
        · rw [String.toList_ofList, List.forall_mem_cons]
          exact ⟨halpha, forall_mem_of_isChain (fun _ _ => isAlpha_of_joins) hrun halpha⟩
      split at h
      · next op hop =>
        cases h
        obtain rfl := BinaryOp.ofSymbol?_eq_some_iff.1 hop
        exact ⟨by rw [eq_nil_of_isChain (isLone_symbol op) hrun, spelling], trivial⟩
      split at h
      · next hopen =>
        cases h
        subst hopen
        exact ⟨by rw [eq_nil_of_isChain (by decide) hrun, spelling], trivial⟩
      split at h
      · next hclose =>
        cases h
        subst hclose
        exact ⟨by rw [eq_nil_of_isChain (by decide) hrun, spelling], trivial⟩
      · cases h
        exact absurd rfl (hstray c)

end Lexeme

open Lexeme

/-- The lexemes, in order, are written as the text.  Blanks may stand anywhere between lexemes, and
must where a lexeme would be read on into the next character. -/
inductive Spells : List Lexeme → List Char → Prop
  | nil : Spells [] []
  | blank {c : Char} {units : List Lexeme} {text : List Char} :
      isBlank c → Spells units text → Spells units (c :: text)
  | unit {u : Lexeme} {units : List Lexeme} {text : List Char} :
      u.IsUnit → (∀ c ∈ u.spelling.getLast?, ∀ d ∈ text.head?, joins c d = false) →
        Spells units text → Spells (u :: units) (u.spelling ++ text)

/-- Every lexeme that can be spelled is a unit of its own. -/
theorem isUnit_of_spells {units : List Lexeme} {text : List Char} (h : Spells units text) :
    ∀ u ∈ units, u.IsUnit := by
  induction h with
  | nil => simp
  | blank _ _ ih => exact ih
  | unit hu _ _ ih => exact List.forall_mem_cons.2 ⟨hu, ih⟩

/-- The characters of a lexeme are cut into that lexeme. -/
theorem Lexeme.ofText_spelling {u : Lexeme} (h : u.IsUnit) : ofText u.spelling = [u] := by
  have hchars : ∀ c rest, ((c :: rest).IsChain fun a b => joins a b) →
      ofText (c :: rest) = (ofRun? c rest).toList := by
    intro c rest hchain
    rw [ofText, List.splitBy_of_isChain (List.cons_ne_nil c rest) hchain]
    cases h : ofRun? c rest <;> simp [ofChars?, h]
  cases u with
  | literal run =>
      obtain ⟨c, rest, rfl, hc, hrest⟩ := h
      have hnumeric : ∀ d ∈ c :: rest, isNumeric d :=
        List.forall_mem_cons.2 ⟨isNumeric_of_isDigit hc, hrest⟩
      rw [spelling, hchars]
      · simp [ofRun?, isBlank_eq_false_of_isDigit hc, hc]
      · refine (List.pairwise_of_forall_mem_list fun a ha b hb => ?_).isChain
        simp [joins, hnumeric a ha, hnumeric b hb]
  | name letters =>
      obtain ⟨hne, halpha⟩ := h
      obtain ⟨c, rest, hletters⟩ := List.exists_cons_of_ne_nil
        (fun hnil => hne (String.toList_eq_nil_iff.1 hnil))
      have hc : c.isAlpha := halpha c (hletters ▸ List.mem_cons_self)
      have hdigit : c.isDigit = false := isDigit_eq_false_of_isAlpha hc
      rw [spelling, hletters, hchars]
      · simp [ofRun?, isBlank_eq_false_of_isAlpha hc, hc, hdigit, ← hletters]
      · refine (List.pairwise_of_forall_mem_list fun a ha b hb => ?_).isChain
        simp [joins, halpha a (hletters ▸ ha), halpha b (hletters ▸ hb)]
  | operator op => cases op <;> decide
  | opening => decide
  | closing => decide
  | stray c => exact h.elim

/-- A text that spells lexemes is cut into them. -/
theorem ofText_eq_of_spells {units : List Lexeme} {text : List Char} (h : Spells units text) :
    ofText text = units := by
  induction h with
  | nil => rfl
  | blank hc _ ih => rw [ofText_cons_of_isBlank hc, ih]
  | unit hu hjoin _ ih => rw [ofText_append hjoin, ofText_spelling hu, ih, List.singleton_append]

/-- Runs that do not join, one written after the other, spell their lexemes. -/
theorem spells_flatten {runs : List (List Char)} (hne : [] ∉ runs)
    (hchain : ∀ run ∈ runs, run.IsChain fun a b => joins a b)
    (hsep : runs.IsChain fun a b => ∃ ha hb, joins (a.getLast ha) (b.head hb) = false)
    (hstray : ∀ c, stray c ∉ runs.filterMap ofChars?) :
    Spells (runs.filterMap ofChars?) runs.flatten := by
  induction runs with
  | nil => exact .nil
  | cons run runs ih =>
      rw [List.mem_cons, not_or] at hne
      rw [List.forall_mem_cons] at hchain
      rw [List.isChain_cons] at hsep
      rw [List.flatten_cons]
      cases hrun : ofChars? run with
      | none =>
          simp only [List.filterMap_cons_none hrun] at hstray ⊢
          obtain ⟨c, rest, rfl⟩ := List.exists_cons_of_ne_nil (Ne.symm hne.1)
          have hc : isBlank c := ofRun?_eq_none_iff.1 hrun
          obtain rfl := eq_nil_of_isChain (isLone_of_isBlank hc) hchain.1
          exact .blank hc (ih hne.2 hchain.2 hsep.2 hstray)
      | some u =>
          simp only [List.filterMap_cons_some hrun, List.mem_cons, not_or] at hstray ⊢
          obtain ⟨hspelling, hunit⟩ :=
            spelling_eq_of_ofChars? hchain.1 hrun fun c hc => (hstray c).1 hc.symm
          rw [← hspelling]
          refine .unit hunit ?_ (ih hne.2 hchain.2 hsep.2 fun c => (hstray c).2)
          intro c hc d hd
          cases runs with
          | nil => simp at hd
          | cons next runs =>
              obtain ⟨hrunne, hnextne, hjoin⟩ := hsep.1 next rfl
              obtain ⟨e, tail, rfl⟩ := List.exists_cons_of_ne_nil hnextne
              rw [hspelling, List.getLast?_eq_some_getLast hrunne] at hc
              obtain rfl := Option.mem_some_iff.1 hc
              obtain rfl : e = d := by simpa using hd
              exact hjoin

/-- A text without stray characters spells the lexemes it is cut into. -/
theorem spells_ofText {text : List Char} (hstray : ∀ c, stray c ∉ ofText text) :
    Spells (ofText text) text := by
  have h := spells_flatten (List.nil_notMem_splitBy joins text)
    (fun _ => List.isChain_of_mem_splitBy) (List.isChain_getLast_head_splitBy joins text) hstray
  rwa [List.flatten_splitBy] at h

end Formula
