import Formula.Strength
import Formula.Proofs.Reduction

/-!
# Formula.Proofs.NumberIndependence

Numbers decide what a formula is worth, but not whether it is worth anything.

`blank` puts zero for every number.  Two readings of a text that are alike but for their numbers
stay so, or fail at the same place for the same reason; order depends on operators alone; and
reducing depends on the depth of the stack alone, where a number counts as one:

* `step_blank_congr`, `read_blank_congr` — readings under bindings of the same names;
* `ofInfix_blank` — postfix order;
* `map_eval_blank` — reduction;
* `map_evaluate_congr` — whether a formula has a value, and why not, shows from the names alone.
-/

namespace Formula

/-- Two runs that look alike after their first stage, and whose second stages look alike wherever
they start alike, look alike at the end. -/
theorem map_bind_congr {x : Except ε α} {x' : Except ε α'} {k : α → Except ε β}
    {k' : α' → Except ε β'} {f : α → γ} {f' : α' → γ} {g : β → δ} {g' : β' → δ}
    (hx : x.map f = x'.map f') (hk : ∀ a a', f a = f' a' → (k a).map g = (k' a').map g') :
    (x >>= k).map g = (x' >>= k').map g' := by
  cases x with
  | error e =>
      cases x' with
      | error e' =>
          obtain rfl := Except.error.inj hx
          rfl
      | ok a' => contradiction
  | ok a =>
      cases x' with
      | error e' => contradiction
      | ok a' => exact hk a a' (Except.ok.inj hx)

/-! ## Tokens without their numbers -/

/-- The token with zero for its number, if it has one. -/
def Token.blank : Token → Token
  | .number _ => .number 0
  | .operator o => .operator o

namespace Infix

/-- The tokens with zero for every number. -/
def blank (formula : Infix) : Infix := ⟨formula.tokens.map Token.blank⟩

/-- The reading with zero for every number. -/
def Progress.blank (p : Progress) : Progress := { p with tokens := p.tokens.map Token.blank }

namespace Progress

variable (p : Progress)

@[simp] theorem complete_blank : p.blank.complete = p.complete := rfl

@[simp] theorem openings_blank : p.blank.openings = p.openings := rfl

@[simp] theorem blank_number (value : Binary32) : (p.number value).blank = p.blank.number 0 := by
  simp [number, blank, Token.blank]

@[simp] theorem blank_operator (op : Operation) :
    (p.operator op).blank = p.blank.operator op := by
  simp [operator, blank, Token.blank, level]

@[simp] theorem blank_binary (op : BinaryOp) : (p.binary op).blank = p.blank.binary op :=
  p.blank_operator _

@[simp] theorem blank_factor : p.factor.blank = p.blank.factor := by
  by_cases h : p.complete
  · simp [factor, h]
  · simp [factor, h]

@[simp] theorem blank_opening (offset : Nat) :
    (p.opening offset).blank = p.blank.opening offset := rfl

@[simp] theorem blank_closing (outer : List Nat) :
    (p.closing outer).blank = p.blank.closing outer := rfl

end Progress

/-! ## Reading -/

variable {m m' : Bindings}

/-- Under bindings of the same names, readings that are alike but for their numbers are alike after
each lexeme, or fail alike. -/
theorem step_blank_congr (hm : ∀ name, name ∈ m ↔ name ∈ m') {p p' : Progress}
    (hp : p.blank = p'.blank) (u : PlacedLexeme) :
    (step m p u).map Progress.blank = (step m' p' u).map Progress.blank := by
  have hcomplete : p.complete = p'.complete := by
    rw [← p.complete_blank, hp, p'.complete_blank]
  have hopenings : p.openings = p'.openings := by
    rw [← p.openings_blank, hp, p'.openings_blank]
  cases hu : u.lexeme with
  | literal run =>
      by_cases hc : p'.complete
      · simp [step, hu, hcomplete, hc, Except.map]
      · cases h : Literal.read run <;> simp [step, hu, hcomplete, hc, h, Except.map, hp]
  | name letters =>
      have hbound : m[letters]?.isSome = m'[letters]?.isSome := by
        rw [Bool.eq_iff_iff, Std.TreeMap.isSome_getElem?_iff_mem,
          Std.TreeMap.isSome_getElem?_iff_mem]
        exact hm letters
      cases h : m[letters]? <;> cases h' : m'[letters]? <;> rw [h, h'] at hbound
      · by_cases hname : (Builtin.ofName? letters).isSome
        · simp [step, hu, h, h', hname, Except.map, hp]
        · simp [step, hu, h, h', hname, Except.map]
      · contradiction
      · contradiction
      · simp [step, hu, h, h', Except.map, hp]
  | operator op =>
      by_cases hc : p'.complete
      · simp [step, hu, hcomplete, hc, Except.map, hp]
      · by_cases hsign : op.isSign
        · simp [step, hu, hcomplete, hc, hsign, Except.map, hp]
        · simp [step, hu, hcomplete, hc, hsign, Except.map]
  | opening => simp [step, hu, Except.map, hp]
  | closing =>
      cases hopen : p'.openings <;> simp [step, hu, hopenings, hopen, Except.map, hp]
  | stray c => simp [step, hu, Except.map]

/-- Under bindings of the same names, readings that are alike but for their numbers stay so, or
fail alike. -/
theorem read_blank_congr (hm : ∀ name, name ∈ m ↔ name ∈ m') {p p' : Progress}
    (hp : p.blank = p'.blank) (units : List PlacedLexeme) :
    (read m p units).map Progress.blank = (read m' p' units).map Progress.blank := by
  induction units generalizing p p' with
  | nil => simpa [read, Except.map, pure, Except.pure] using hp
  | cons u units ih =>
      rw [read_cons, read_cons]
      exact map_bind_congr (step_blank_congr hm hp u) fun q q' hq => ih hq

/-- Whether a bracket is left open, and which, does not depend on numbers. -/
theorem finish_blank (p : Progress) : p.blank.finish = p.finish.map blank := by
  cases h : p.openings <;> simp [Progress.finish, h, Except.map, blank, Progress.blank]

/-- Under bindings of the same names, a text has the same tokens but for their numbers, or none for
the same reason. -/
theorem ofText_blank_congr (hm : ∀ name, name ∈ m ↔ name ∈ m') (text : List Char) :
    (ofText m text).map blank = (ofText m' text).map blank := by
  refine map_bind_congr (read_blank_congr hm rfl (PlacedLexeme.ofText text)) fun p p' hp => ?_
  rw [← finish_blank, hp, finish_blank]

end Infix

/-! ## Order and reduction -/

namespace Postfix

/-- The sequence with zero for every number. -/
def blank (p : Postfix) : Postfix := ⟨p.tokens.map Token.blank⟩

namespace Arrangement

/-- The arrangement with zero for every number. -/
def blank (a : Arrangement) : Arrangement := { a with settled := a.settled.map Token.blank }

@[simp] theorem toList_blank (a : Arrangement) : a.blank.toList = a.toList.map Token.blank := by
  simp [blank, toList, Token.blank]

theorem push_blank (a : Arrangement) (t : Token) : a.blank.push t.blank = (a.push t).blank := by
  cases t with
  | number value => simp [push, blank, Token.blank]
  | operator o => exact ext_toList (by simp [push, blank, Token.blank]) rfl

theorem arrange_blank (a : Arrangement) (tokens : List Token) :
    a.blank.arrange (tokens.map Token.blank) = (a.arrange tokens).blank := by
  induction tokens generalizing a with
  | nil => rfl
  | cons t tokens ih =>
      simp only [arrange, List.map_cons, List.foldl_cons] at ih ⊢
      rw [push_blank, ih]

end Arrangement

/-- Postfix order does not depend on numbers. -/
theorem ofInfix_blank (formula : Infix) : ofInfix formula.blank = (ofInfix formula).blank := by
  have hempty : ({} : Arrangement).blank = {} := by simp [Arrangement.blank]
  rw [blank, ofInfix, ofInfix, ← Arrangement.toList_blank, ← Arrangement.arrange_blank, hempty]
  rfl

/-- The depth of the stack does not depend on numbers. -/
theorem reduceDepth_blank (depth : Nat) (t : Token) :
    reduceDepth depth t.blank = reduceDepth depth t := by
  cases t <;> rfl

/-- Whether a sequence has a value, and why not, does not depend on numbers. -/
theorem map_eval_blank (p : Postfix) :
    p.blank.eval.map (fun _ => ()) = p.eval.map fun _ => () := by
  rw [map_eval, map_eval, blank, List.foldlM_map]
  simp only [reduceDepth_blank]

end Postfix

/-! ## Texts -/

variable {m m' : Bindings}

/-- Under bindings of the same names, a text has the same postfix order but for the numbers, or none
for the same reason. -/
theorem toPostfix_blank_congr (hm : ∀ name, name ∈ m ↔ name ∈ m') (text : String) :
    (toPostfix text m).map Postfix.blank = (toPostfix text m').map Postfix.blank := by
  by_cases hempty : (trimmed text).isEmpty
  · rw [toPostfix, toPostfix, if_pos hempty, if_pos hempty]
  · have htokens := Infix.ofText_blank_congr hm (trimmed text)
    rw [toPostfix, toPostfix, if_neg hempty, if_neg hempty]
    cases h : Infix.ofText m (trimmed text) <;>
      cases h' : Infix.ofText m' (trimmed text) <;> rw [h, h'] at htokens
    · obtain rfl := Except.error.inj htokens
      rfl
    · contradiction
    · contradiction
    · next formula formula' =>
      have hformula : formula.blank = formula'.blank := Except.ok.inj htokens
      show Except.ok _ = Except.ok _
      rw [← Postfix.ofInfix_blank, hformula, Postfix.ofInfix_blank]

/-- Whether a sequence has a value, and why not, does not depend on its numbers. -/
theorem Postfix.map_value_congr {p p' : Postfix} (h : p.blank = p'.blank) :
    p.value.map (fun _ => ()) = p'.value.map fun _ => () := by
  have heval : p.eval.map (fun _ => ()) = p'.eval.map fun _ => () := by
    rw [← map_eval_blank, h, map_eval_blank]
  have hvalue (p : Postfix) :
      p.value.map (fun _ => ()) = (p.eval.map fun _ => ()).mapError Fault.unplaced := by
    rw [value]
    cases p.eval <;> rfl
  rw [hvalue, hvalue, heval]

/-- Under bindings of the same names, a text has a value, or has none for the same reason. -/
theorem map_evaluate_congr (hm : ∀ name, name ∈ m ↔ name ∈ m') (text : String) :
    (evaluate text m).map (fun _ => ()) = (evaluate text m').map fun _ => () := by
  rw [evaluate_eq_bind, evaluate_eq_bind]
  exact map_bind_congr (toPostfix_blank_congr hm text) fun p p' => Postfix.map_value_congr

/-- Outcomes that are alike but for their values fail for the same reasons, and not otherwise. -/
theorem eq_error_iff_of_map_eq {x : Except ε α} {y : Except ε β}
    (h : x.map (fun _ => ()) = y.map fun _ => ()) :
    ((∃ a, x = .ok a) ↔ ∃ b, y = .ok b) ∧ ∀ e, x = .error e ↔ y = .error e := by
  cases x <;> cases y <;> simp_all [Except.map]

/-- Bindings at two elapsed times have the same names. -/
theorem mem_insert_timeName_iff (v v' : Binary32) (name : String) :
    name ∈ Bindings.standard.insert Bindings.timeName v ↔
      name ∈ Bindings.standard.insert Bindings.timeName v' := by
  rw [Std.TreeMap.mem_insert, Std.TreeMap.mem_insert]

/-- Whether a formula fails, and how, does not depend on the values of the names it is given, nor a
strength that is a formula on the elapsed time. -/
theorem evaluate_eq_error_iff_of_mem_iff {m m' : Bindings} (hm : ∀ name, name ∈ m ↔ name ∈ m')
    (text : String) :
    (((∃ v, evaluate text m = .ok v) ↔ ∃ v, evaluate text m' = .ok v) ∧
      ∀ failure, evaluate text m = .error failure ↔ evaluate text m' = .error failure) ∧
    ∀ elapsed elapsed' : Binary64,
      ((∃ v, (Strength.formula text).valueAt elapsed = .ok v) ↔
        ∃ v, (Strength.formula text).valueAt elapsed' = .ok v) ∧
      ∀ failure, (Strength.formula text).valueAt elapsed = .error failure ↔
        (Strength.formula text).valueAt elapsed' = .error failure := by
  refine ⟨eq_error_iff_of_map_eq (map_evaluate_congr hm text), fun elapsed elapsed' => ?_⟩
  have htime := mem_insert_timeName_iff elapsed.toBinary32 elapsed'.toBinary32
  exact eq_error_iff_of_map_eq (map_evaluate_congr htime text)

/-- A formula that has no value with zero for `x` has none with a NaN for it. -/
theorem evaluate_eq_error_iff_of_mem_iff_nan :
    let m : Bindings := Std.TreeMap.ofList [("x", (0 : Binary32))]
    let m' : Bindings := Std.TreeMap.ofList [("x", Binary32.ofBits 0x7fc00000)]
    (∀ name, name ∈ m ↔ name ∈ m') ∧
      (((∃ v, evaluate "2 / (x - )" m = .ok v) ↔ ∃ v, evaluate "2 / (x - )" m' = .ok v) ∧
        ∀ failure,
          evaluate "2 / (x - )" m = .error failure ↔ evaluate "2 / (x - )" m' = .error failure) ∧
      ∀ elapsed elapsed' : Binary64,
        ((∃ v, (Strength.formula "2 / (x - )").valueAt elapsed = .ok v) ↔
          ∃ v, (Strength.formula "2 / (x - )").valueAt elapsed' = .ok v) ∧
        ∀ failure, (Strength.formula "2 / (x - )").valueAt elapsed = .error failure ↔
          (Strength.formula "2 / (x - )").valueAt elapsed' = .error failure := by
  intro m m'
  have hm : ∀ name, name ∈ m ↔ name ∈ m' := by
    intro name
    rw [Std.TreeMap.mem_ofList, Std.TreeMap.mem_ofList]
    rfl
  exact ⟨hm, evaluate_eq_error_iff_of_mem_iff hm _⟩

end Formula
