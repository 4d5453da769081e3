import Formula.Strength
import Formula.Proofs.Places

/-!
# Formula.Proofs.Relevance

Which bindings matter to a formula.

Reading looks names up one at a time, each by all of its letters, so a formula depends on the
bindings of its own names alone.  Those are the maximal runs of letters in its text: neither a part
of a run nor a name with anything but letters in it is ever looked up.

* `step_congr`, `read_congr` — readings under bindings that agree on the names that are read;
* `eq_of_agreeOn` — bindings that agree on the names of a text give it the same results.
-/

namespace Formula

open Infix

/-- The bindings give each maximal run of letters of the text the same value, or leave it unbound
alike. -/
def AgreeOn (text : List Char) (m m' : Bindings) : Prop :=
  ∀ letters, HasLetterRun text letters → m[letters]? = m'[letters]?

/-! ## Readings -/

namespace Infix

variable {m m' : Bindings}

/-- A lexeme that is a name is looked up; no other one depends on the bindings. -/
theorem step_congr {u : PlacedLexeme}
    (h : ∀ letters, u.lexeme = .name letters → m[letters]? = m'[letters]?) (p : Progress) :
    step m p u = step m' p u := by
  obtain ⟨offset, lexeme⟩ := u
  cases lexeme with
  | name letters => simp only [step, h letters rfl]
  | _ => rfl

/-- A reading depends on the bindings of the names it comes to. -/
theorem read_congr {units : List PlacedLexeme}
    (h : ∀ letters, .name letters ∈ units.map (·.lexeme) → m[letters]? = m'[letters]?)
    (p : Progress) : read m p units = read m' p units := by
  induction units generalizing p with
  | nil => rfl
  | cons u units ih =>
      have hu : ∀ letters, u.lexeme = .name letters → m[letters]? = m'[letters]? :=
        fun letters hname => h letters (hname ▸ List.mem_cons_self)
      have hunits := ih fun letters hmem => h letters (List.mem_cons_of_mem _ hmem)
      rw [read_cons, read_cons, step_congr hu, funext hunits]

theorem ofText_congr {text : List Char} (h : AgreeOn text m m') :
    ofText m text = ofText m' text := by
  have hnames : ∀ letters, .name letters ∈ (PlacedLexeme.ofText text).map (·.lexeme) →
      m[letters]? = m'[letters]? := by
    intro letters hmem
    rw [PlacedLexeme.map_lexeme_ofText, name_mem_ofText_iff] at hmem
    exact h letters hmem
  rw [ofText, ofText, read_congr hnames]

end Infix

/-! ## Whole texts -/

variable {text : String} {m m' : Bindings}

/-- Blanks around a text hide none of its names, and add none. -/
theorem hasLetterRun_trimmed_iff {letters : String} :
    HasLetterRun (trimmed text) letters ↔ HasLetterRun text.toList letters := by
  rw [← name_mem_ofText_iff, trimmed, Lexeme.ofText_trim, name_mem_ofText_iff]

/-- Bindings that agree on the names of a text give it the same tokens and the same value, or the
same failure. -/
theorem eq_of_agreeOn (h : AgreeOn text.toList m m') :
    toPostfix text m = toPostfix text m' ∧ evaluate text m = evaluate text m' := by
  have htrimmed : AgreeOn (trimmed text) m m' :=
    fun letters hletters => h letters (hasLetterRun_trimmed_iff.1 hletters)
  have hconvert : toPostfix text m = toPostfix text m' := by
    rw [toPostfix, toPostfix, Infix.ofText_congr htrimmed]
  exact ⟨hconvert, by rw [evaluate, evaluate, hconvert]⟩

/-- A name that does not occur may be bound to anything. -/
theorem agreeOn_insert {name : String} (h : ¬HasLetterRun text.toList name) (value : Binary32) :
    AgreeOn text.toList (m.insert name value) m := by
  intro letters hletters
  have hne : name ≠ letters := fun heq => h (heq ▸ hletters)
  simp [Std.TreeMap.getElem?_insert, hne]

/-- A name that does not occur need not be bound. -/
theorem agreeOn_erase {name : String} (h : ¬HasLetterRun text.toList name) :
    AgreeOn text.toList (m.erase name) m := by
  intro letters hletters
  have hne : name ≠ letters := fun heq => h (heq ▸ hletters)
  simp [Std.TreeMap.getElem?_erase, hne]

/-- Only the bindings of names that occur matter: those that agree on them give the same results; a
name that does not occur may be bound, bound to another value, or not be bound; and if the elapsed
time does not occur, a formula of it has the same value at all times. -/
theorem results_eq_of_agreeOn (text : String) :
    (∀ m m', AgreeOn text.toList m m' →
      toPostfix text m = toPostfix text m' ∧ evaluate text m = evaluate text m') ∧
    (∀ (m : Bindings) (name : String), ¬HasLetterRun text.toList name →
      (∀ value, toPostfix text (m.insert name value) = toPostfix text m ∧
        evaluate text (m.insert name value) = evaluate text m) ∧
      toPostfix text (m.erase name) = toPostfix text m ∧
        evaluate text (m.erase name) = evaluate text m) ∧
    (¬HasLetterRun text.toList Bindings.timeName → ∀ elapsed elapsed' : Binary64,
      (Strength.formula text).valueAt elapsed = (Strength.formula text).valueAt elapsed') := by
  refine ⟨fun m m' => eq_of_agreeOn, fun m name h => ?_, fun h elapsed elapsed' => ?_⟩
  · exact ⟨fun value => eq_of_agreeOn (agreeOn_insert h value), eq_of_agreeOn (agreeOn_erase h)⟩
  · calc (Strength.formula text).valueAt elapsed
        = evaluate text Bindings.standard := (eq_of_agreeOn (agreeOn_insert h _)).2
      _ = (Strength.formula text).valueAt elapsed' := (eq_of_agreeOn (agreeOn_insert h _)).2.symm

/-- The letter of the elapsed time stands in a text, but only in a longer run. -/
theorem results_eq_of_agreeOn_tan :
    let text := "tan(x)"
    let m : Bindings := Std.TreeMap.ofList [("x", (1 : Binary32))]
    (¬HasLetterRun text.toList "t" ∧ evaluate text (m.erase "t") = evaluate text m ∧
      (Strength.formula text).valueAt ⟨0⟩ = (Strength.formula text).valueAt ⟨0x3ff0000000000000⟩) ∧
    AgreeOn text.toList (m.insert "t" 2) m ∧
      evaluate text (m.insert "t" 2) = evaluate text m := by
  intro text m
  have hrun : ¬HasLetterRun text.toList "t" := by
    rw [← name_mem_ofText_iff]
    decide +kernel
  have hagree : AgreeOn text.toList (m.insert "t" 2) m := agreeOn_insert hrun 2
  obtain ⟨hresults, hunbound, htime⟩ := results_eq_of_agreeOn text
  exact ⟨⟨hrun, (hunbound m "t" hrun).2.2, htime hrun _ _⟩, hagree, (hresults _ m hagree).2⟩

end Formula
