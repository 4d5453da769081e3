import Formula.Proofs.Substitution
import Formula.Proofs.Underflow

/-!
# Formula.Proofs.Calls

A function in front of a function.

An operator waits until one arrives that binds no tighter.  A function in a bracket binds tighter
than one in front of it; a function that follows without a bracket does not.  So `f (g x)` is listed
as `x`, `g`, `f`, but `f g x` as `f`, `x`, `g`, and `f` is applied to whatever value has been
completed last before it:

* `order_function_cons` — what a function and its argument become does not depend on what stands
  around them, nor the other way round;
* `order_nested`, `order_chained` — the order of `f (g x)` and of `f g x`;
* `exists_listing_chained` — the listings of two such texts differ in the place of `f` alone, and
  without the bracket there is a value exactly if anything is listed before.
-/

namespace Formula

open Infix Postfix

/-! ## Atoms -/

/-- A literal, a bound name, or brackets around a text that can be converted. -/
inductive IsAtom (m : Bindings) : String → Prop
  | literal {run : List Char} {v : Binary32} : Literal.Denotes run v → IsAtom m (String.ofList run)
  | name {x : String} {v : Binary32} :
      (x ≠ "" ∧ ∀ c ∈ x.toList, c.isAlpha) → m[x]? = some v → IsAtom m x
  | group {text : String} {p : Postfix} : toPostfix text m = .ok p → IsAtom m ("(" ++ text ++ ")")

/-- What a literal denotes makes it a unit of its own. -/
theorem Literal.Denotes.isUnit {run : List Char} {v : Binary32} (h : Denotes run v) :
    (Lexeme.literal run).IsUnit := by
  cases h with
  | whole hne hdigits =>
      obtain ⟨c, rest, rfl⟩ := List.exists_cons_of_ne_nil hne
      rw [List.forall_mem_cons] at hdigits
      exact ⟨c, rest, rfl, hdigits.1, fun d hd => Lexeme.isNumeric_of_isDigit (hdigits.2 d hd)⟩
  | @decimal digits places hne hdigits _ hplaces =>
      obtain ⟨c, rest, rfl⟩ := List.exists_cons_of_ne_nil hne
      rw [List.forall_mem_cons] at hdigits
      refine ⟨c, rest ++ '.' :: places, rfl, hdigits.1, ?_⟩
      rw [List.forall_mem_append, List.forall_mem_cons]
      exact ⟨fun d hd => Lexeme.isNumeric_of_isDigit (hdigits.2 d hd), by decide,
        fun d hd => Lexeme.isNumeric_of_isDigit (hplaces d hd)⟩

theorem Literal.Denotes.ofText_eq {run : List Char} {v : Binary32} (h : Denotes run v) :
    Lexeme.ofText run = [.literal run] :=
  Lexeme.ofText_spelling h.isUnit

/-- Where a value is to come, a literal is read as the number it denotes. -/
theorem Literal.Denotes.emitAll_ofText {run : List Char} {v : Binary32} (h : Denotes run v)
    (m : Bindings) (level : Nat) :
    emitAll m ⟨level, false⟩ (Lexeme.ofText run) = .ok ⟨[.number v], ⟨level, true⟩⟩ := by
  rw [h.ofText_eq, emitAll_singleton, emit_eq_ok_iff]
  exact .literal (read_eq_ok_of_denotes h)

/-- Where a value is to come, an atom is read as one, whatever brackets are open. -/
theorem IsAtom.exists_emitAll {m : Bindings} {X : String} (h : IsAtom m X) :
    ∃ tokens : List Token, ∀ level, emitAll m ⟨level, false⟩ (Lexeme.ofText X.toList) =
      .ok ⟨tokens.map (Token.raise (level + 1)), ⟨level, true⟩⟩ := by
  cases h with
  | @literal run v hdenotes =>
      refine ⟨[.number v], fun level => ?_⟩
      rw [String.toList_ofList]
      exact hdenotes.emitAll_ofText m level
  | @name x v hx hbound =>
      refine ⟨[.number v], fun level => ?_⟩
      have hunit := Lexeme.ofText_spelling (u := .name X) hx
      rw [show X.toList = (Lexeme.name X).spelling from rfl, hunit, emitAll_singleton,
        emit_eq_ok_iff]
      exact .value hbound
  | @group text p hp =>
      obtain ⟨-, e, hread, hlevel, -⟩ := convert_eq_ok_iff.1 (toPostfix_eq_ok_iff.1 hp)
      refine ⟨e.tokens, fun level => ?_⟩
      have hgroup := ofText_group [] text.toList []
      have hinside : emitAll m ⟨level + 1, false⟩ (Lexeme.ofText text.toList) =
          .ok (e.raise (level + 1)) := by
        simpa [State.raise] using emitAll_raise hread (level + 1)
      have hunits : Lexeme.ofText ("(" ++ text ++ ")").toList =
          .opening :: (Lexeme.ofText text.toList ++ [.closing]) := by
        simpa using hgroup
      rw [hunits]
      exact emitAll_group (s := ⟨level, false⟩) hinside (by simp [Emission.raise, hlevel])

/-! ## What waits below a function -/

namespace Postfix.Arrangement

/-- What an arriving operator is placed on: those that it settles are settled. -/
def below (a : Arrangement) (o : Operator) : Arrangement :=
  { settled := a.settled ++ (a.settledBy o).map Token.operator
    pending := a.pending.dropWhile fun o' => o.precedence ≤ o'.precedence }

/-- What an operator is placed on is outranked by it. -/
theorem lt_of_mem_below {a : Arrangement} (h : a.Descending) {o o' : Operator}
    (ho' : o' ∈ (a.below o).pending) : o'.precedence < o.precedence :=
  precedence_lt_of_mem_dropWhile h ho'

/-- An operator arrives as if what it settles had been settled before. -/
theorem push_below {a : Arrangement} (h : a.Descending) (o : Operator) :
    (a.below o).push (.operator o) = a.push (.operator o) := by
  have honto : (a.below o).push (.operator o) =
      (({} : Arrangement).push (.operator o)).onto (a.below o) := by
    rw [← push_onto, empty_onto]
    rintro o₁ h₁ o' ho'
    obtain rfl := Token.operator.inj h₁
    exact lt_of_mem_below h ho'
  rw [honto]
  refine ext_toList ?_ rfl
  simp [onto, push, below, settledBy]

end Postfix.Arrangement

open Postfix.Arrangement

/-! ## A function and what it is read with -/

/-- The token of a function inside `level` brackets. -/
def Builtin.token (f : Builtin) (level : Nat) : Token :=
  .operator ((Operation.function f.name).priced level)

@[simp] theorem Builtin.unpriced_token (f : Builtin) (level : Nat) :
    (f.token level).unpriced = .inr (.function f.name) := rfl

/-- Everything inside of further brackets outranks an operation. -/
theorem pricedFrom_map_raise_of_lt (op : Operation) {level k : Nat} (h : level < k)
    (tokens : List Token) :
    PricedFrom (op.precedenceAt level + 1) (tokens.map (Token.raise k)) := by
  refine (pricedFrom_map_raise k tokens).mono (Nat.le_trans (op.precedenceAt_lt level) ?_)
  exact Nat.mul_le_mul_right _ h

/-- A function and the tokens behind it that bind as tight stay together, between what settles
before and what settles after them, neither of which depends on those tokens. -/
theorem order_function_cons {m : Bindings} {front back : List Lexeme} {e e' : Emission}
    (hfront : emitAll m {} front = .ok e) (hback : emitAll m ⟨e.state.level, true⟩ back = .ok e')
    (f : Builtin) :
    ∃ before behind, ∀ part,
      PricedFrom ((Operation.function f.name).precedenceAt e.state.level) part →
        order (e.tokens ++ (e.state.product ++ f.token e.state.level :: part ++ e'.tokens)) =
          before ++ (order (f.token e.state.level :: part) ++ behind) := by
  let o := (Operation.function f.name).priced e.state.level
  let a := (({} : Postfix.Arrangement).arrange e.tokens).arrange e.state.product
  have hfits : a.Fits ⟨e.state.level, false⟩ :=
    fits_arrange_product (Fits.of_emitAll hfront (fits_empty _))
  let behind :=
    (({ pending := (a.below o).pending } : Postfix.Arrangement).arrange e'.tokens).toList
  refine ⟨(a.below o).settled.toList, behind, fun part hpart => ?_⟩
  have hsplit :
      order (e.tokens ++ (e.state.product ++ f.token e.state.level :: part ++ e'.tokens)) =
        ((a.below o).arrange (f.token e.state.level :: part ++ e'.tokens)).toList := by
    have hcons (b : Postfix.Arrangement) : b.arrange (f.token e.state.level :: part ++ e'.tokens) =
        (b.push (.operator o)).arrange (part ++ e'.tokens) := rfl
    rw [hcons, push_below hfits.descending, ← hcons, ← toList_arrange_empty, List.append_assoc,
      Postfix.Arrangement.arrange_append, Postfix.Arrangement.arrange_append]
  have hnext : ∀ t ∈ e'.tokens.head?, ∃ o', t = .operator o' ∧ o'.precedence ≤ o.precedence := by
    intro t ht
    obtain ⟨o', rfl, ho'⟩ := head?_tokens_of_complete hback t ht
    have hprice : o.precedence + 1 = (e.state.level + 1) * Operation.nestingStep := by
      simp [o, Operation.priced, Operation.precedenceAt, Operation.tier, Operation.nestingStep,
        Nat.add_mul]
    exact ⟨o', rfl, by omega⟩
  rw [hsplit]
  exact toList_arrange_append (pricedFrom_operator_cons.2 ⟨Nat.le_refl _, hpart⟩)
    (fun _ => lt_of_mem_below hfits.descending) hnext

theorem pricedFrom_nested (f g : Builtin) (level : Nat) (tokens : List Token) :
    PricedFrom ((Operation.function f.name).precedenceAt level + 1)
      (g.token (level + 1) :: tokens.map (Token.raise (level + 2))) := by
  have hlt := (Operation.function f.name).precedenceAt_lt_precedenceAt (.function g.name)
    (Nat.lt_succ_self level)
  exact pricedFrom_operator_cons.2
    ⟨hlt, pricedFrom_map_raise_of_lt _ (Nat.lt_add_of_pos_right Nat.two_pos) tokens⟩

theorem pricedFrom_chained (f g : Builtin) (level : Nat) (tokens : List Token) :
    PricedFrom ((Operation.function f.name).precedenceAt level)
      (g.token level :: tokens.map (Token.raise (level + 1))) := by
  have htokens := pricedFrom_map_raise_of_lt (.function f.name) (Nat.lt_succ_self level) tokens
  exact pricedFrom_operator_cons.2 ⟨Nat.le_refl _, htokens.mono (Nat.le_succ _)⟩

/-- In `f (g x)`, the argument comes first, then `g`, then `f`. -/
theorem order_nested (f g : Builtin) (level : Nat) (tokens : List Token) :
    order (f.token level :: g.token (level + 1) :: tokens.map (Token.raise (level + 2))) =
      (order tokens).map (Token.raise (level + 2)) ++ [g.token (level + 1), f.token level] := by
  have hinner : order (g.token (level + 1) :: tokens.map (Token.raise (level + 2))) =
      order (tokens.map (Token.raise (level + 2))) ++ [g.token (level + 1)] :=
    order_operator_cons (pricedFrom_map_raise_of_lt _ (Nat.lt_succ_self (level + 1)) tokens)
  have houter : order (f.token level :: g.token (level + 1) ::
        tokens.map (Token.raise (level + 2))) =
      order (g.token (level + 1) :: tokens.map (Token.raise (level + 2))) ++ [f.token level] :=
    order_operator_cons (pricedFrom_nested f g level tokens)
  rw [houter, hinner, order_map_raise, List.append_assoc]
  rfl

/-- In `f g x`, `f` comes first. -/
theorem order_chained (f g : Builtin) (level : Nat) (tokens : List Token) :
    order (f.token level :: g.token level :: tokens.map (Token.raise (level + 1))) =
      f.token level :: ((order tokens).map (Token.raise (level + 1)) ++ [g.token level]) := by
  have hinner : order (g.token level :: tokens.map (Token.raise (level + 1))) =
      order (tokens.map (Token.raise (level + 1))) ++ [g.token level] :=
    order_operator_cons (pricedFrom_map_raise_of_lt _ (Nat.lt_succ_self level) tokens)
  have hsingle : PricedFrom ((Operation.function f.name).precedenceAt level) [f.token level] :=
    pricedFrom_operator_cons.2 ⟨Nat.le_refl _, pricedFrom_nil _⟩
  have hnext : ∀ t ∈ (g.token level :: tokens.map (Token.raise (level + 1))).head?,
      ∃ o, t = .operator o ∧ o.precedence ≤ (Operation.function f.name).precedenceAt level := by
    intro t ht
    obtain rfl := Option.some.inj ht
    exact ⟨_, rfl, Nat.le_refl _⟩
  rw [← List.singleton_append, order_append hsingle hnext, hinner, order_map_raise]
  rfl

/-! ## Reading -/

section Reading

variable {m : Bindings} {f g : Builtin}

theorem emitAll_call (hf : m[f.name]? = none) (s : State) (units : List Lexeme) :
    emitAll m s (.name f.name :: units) =
      (emitAll m ⟨s.level, false⟩ units).map (Emission.after (s.product ++ [f.token s.level])) :=
  emitAll_cons_of_emits (.call hf (Builtin.ofName?_name f)) units

variable {units : List Lexeme} {tokens : List Token}

/-- What is read of `f (g x)`. -/
theorem emitAll_nested (hf : m[f.name]? = none) (hg : m[g.name]? = none)
    (hunits : ∀ level, emitAll m ⟨level, false⟩ units =
      .ok ⟨tokens.map (Token.raise (level + 1)), ⟨level, true⟩⟩) (s : State) :
    emitAll m s (.name f.name :: .opening :: (.name g.name :: units ++ [.closing])) =
      .ok ⟨s.product ++ f.token s.level :: g.token (s.level + 1) ::
        tokens.map (Token.raise (s.level + 2)), ⟨s.level, true⟩⟩ := by
  have hinner : emitAll m ⟨s.level + 1, false⟩ (.name g.name :: units) =
      .ok ⟨g.token (s.level + 1) :: tokens.map (Token.raise (s.level + 2)),
        ⟨s.level + 1, true⟩⟩ := by
    rw [emitAll_call hg, hunits]
    rfl
  have hgroup := emitAll_group (s := ⟨s.level, false⟩) hinner rfl
  rw [emitAll_call hf, hgroup]
  simp [Except.map, Emission.after]

/-- What is read of `f g x`. -/
theorem emitAll_chained (hf : m[f.name]? = none) (hg : m[g.name]? = none)
    (hunits : ∀ level, emitAll m ⟨level, false⟩ units =
      .ok ⟨tokens.map (Token.raise (level + 1)), ⟨level, true⟩⟩) (s : State) :
    emitAll m s (.name f.name :: .name g.name :: units) =
      .ok ⟨s.product ++ f.token s.level :: g.token s.level ::
        tokens.map (Token.raise (s.level + 1)), ⟨s.level, true⟩⟩ := by
  rw [emitAll_call hf, emitAll_call hg, hunits]
  simp [Except.map, Emission.after]

/-- A value between two parts that are read is converted with them. -/
theorem convert_append_append {front middle back : List Lexeme} {e e' : Emission}
    {part : List Token} (hfront : emitAll m {} front = .ok e)
    (hmiddle : emitAll m e.state middle = .ok ⟨e.state.product ++ part, ⟨e.state.level, true⟩⟩)
    (hback : emitAll m ⟨e.state.level, true⟩ back = .ok e') (hlevel : e'.state.level = 0)
    (hne : middle ≠ []) :
    convert m (front ++ (middle ++ back)) =
      .ok ⟨order (e.tokens ++ (e.state.product ++ part ++ e'.tokens))⟩ := by
  refine convert_eq_ok_iff.2
    ⟨by simp [hne], ⟨e.tokens ++ (e.state.product ++ part ++ e'.tokens), e'.state⟩, ?_, hlevel, rfl⟩
  rw [emitAll_append_of_eq_ok hfront, emitAll_append_of_eq_ok hmiddle, hback]
  rfl

/-- Where `f (g x)` is converted, `f g x` is, too, and the place of `f` is all that differs. -/
theorem exists_convert_chained (hf : m[f.name]? = none) (hg : m[g.name]? = none)
    (hunits : ∀ level, emitAll m ⟨level, false⟩ units =
      .ok ⟨tokens.map (Token.raise (level + 1)), ⟨level, true⟩⟩)
    {front back : List Lexeme} {p : Postfix}
    (h : convert m (front ++ ((.name f.name :: .opening :: (.name g.name :: units ++ [.closing])) ++
      back)) = .ok p) :
    ∃ level before behind,
      p = ⟨before ++ ((order tokens).map (Token.raise (level + 2)) ++
        g.token (level + 1) :: f.token level :: behind)⟩ ∧
      convert m (front ++ ((.name f.name :: .name g.name :: units) ++ back)) =
        .ok ⟨before ++ f.token level :: ((order tokens).map (Token.raise (level + 1)) ++
          g.token level :: behind)⟩ := by
  obtain ⟨-, whole, hwhole, hlevel, rfl⟩ := convert_eq_ok_iff.1 h
  obtain ⟨e, rest, hfront, hrest, rfl⟩ := emitAll_append_eq_ok_iff.1 hwhole
  obtain ⟨e₁, e', hmiddle, hback, rfl⟩ := emitAll_append_eq_ok_iff.1 hrest
  obtain rfl := Except.ok.inj ((emitAll_nested hf hg hunits e.state).symm.trans hmiddle)
  obtain ⟨before, behind, horder⟩ := order_function_cons hfront hback f
  refine ⟨e.state.level, before, behind, ?_, ?_⟩
  · have hnested := horder _ ((pricedFrom_nested f g e.state.level tokens).mono (Nat.le_succ _))
    rw [order_nested] at hnested
    exact congrArg Postfix.mk (hnested.trans (by simp))
  · rw [convert_append_append hfront (emitAll_chained hf hg hunits e.state) hback hlevel
      (List.cons_ne_nil _ _), horder _ (pricedFrom_chained f g e.state.level tokens), order_chained]
    simp

end Reading

/-! ## Values -/

namespace Postfix

/-- Whether tokens can be reduced depends on the depth of the stack alone. -/
theorem exists_reduceAll_eq_ok_of_length_eq {stack stack' out : List Binary32}
    {tokens : List Token} (hlength : stack'.length = stack.length)
    (h : reduceAll stack tokens = .ok out) :
    ∃ out', reduceAll stack' tokens = .ok out' ∧ out'.length = out.length := by
  have hdepth := map_length_reduceAll stack' tokens
  rw [hlength, ← map_length_reduceAll, h] at hdepth
  cases h' : reduceAll stack' tokens with
  | error fault =>
      rw [h'] at hdepth
      cases hdepth
  | ok out' =>
      rw [h'] at hdepth
      exact ⟨out', rfl, Except.ok.inj hdepth⟩

/-- A function is reduced on every stack that is not empty, and does not change its depth. -/
theorem exists_reduceAll_function_cons {stack out : List Binary32} (hne : stack ≠ []) (f : Builtin)
    (level : Nat) {tokens : List Token} (h : reduceAll stack tokens = .ok out) :
    ∃ out', reduceAll stack (f.token level :: tokens) = .ok out' ∧ out'.length = out.length := by
  obtain ⟨operand, rest, rfl⟩ := List.exists_cons_of_ne_nil hne
  have hdepth : (f.apply operand :: rest).length = (operand :: rest).length := rfl
  obtain ⟨out', hout', hlength⟩ := exists_reduceAll_eq_ok_of_length_eq hdepth h
  exact ⟨out', reduceAll_cons_eq_ok_iff.2 ⟨_, .call f _ operand rest, hout'⟩, hlength⟩

/-- On a stack that is not empty, a function may be reduced first of all, as far as the depth of the
stack goes. -/
theorem exists_reduceAll_chained {stack out : List Binary32} (hne : stack ≠ []) {f g : Builtin}
    {level : Nat} {inner behind : List Token}
    (h : reduceAll stack (inner ++ g.token (level + 1) :: f.token level :: behind) = .ok out) :
    ∃ out', reduceAll stack (f.token level :: (inner ++ g.token level :: behind)) = .ok out' ∧
      out'.length = out.length := by
  obtain ⟨stack₁, hinner, hrest⟩ := reduceAll_append_eq_ok_iff.1 h
  obtain ⟨stack₂, hg, hrest⟩ := reduceAll_cons_eq_ok_iff.1 hrest
  obtain ⟨stack₃, hf, hbehind⟩ := reduceAll_cons_eq_ok_iff.1 hrest
  have hdepth : stack₂.length = stack₃.length := by
    rw [← reduce_eq_ok_iff, ← reduceAll_singleton] at hf
    have hlength := balance_of_reduceAll_eq_ok hf
    rw [show balance [f.token level] = 0 from rfl] at hlength
    omega
  obtain ⟨out₁, hout₁, hlength₁⟩ := exists_reduceAll_eq_ok_of_length_eq hdepth hbehind
  have hg' : Reduces stack₁ (g.token level) stack₂ := by
    rw [← reduce_eq_ok_iff] at hg ⊢
    exact hg
  have hwithout : reduceAll stack (inner ++ g.token level :: behind) = .ok out₁ :=
    reduceAll_append_eq_ok_iff.2 ⟨stack₁, hinner, reduceAll_cons_eq_ok_iff.2 ⟨stack₂, hg', hout₁⟩⟩
  obtain ⟨out', hout', hlength'⟩ := exists_reduceAll_function_cons hne f level hwithout
  exact ⟨out', hout', hlength'.trans hlength₁⟩

/-- Where a function stands behind its argument, it may as well stand in front of it, if anything
has been reduced before: there is a value then, too. -/
theorem exists_eval_chained {before inner behind : List Token} {f g : Builtin} {level : Nat}
    {v : Binary32} (hne : before ≠ [])
    (h : eval ⟨before ++ (inner.map (Token.raise (level + 2)) ++
      g.token (level + 1) :: f.token level :: behind)⟩ = .ok v) :
    ∃ w, eval ⟨before ++ f.token level ::
      (inner.map (Token.raise (level + 1)) ++ g.token level :: behind)⟩ = .ok w := by
  obtain ⟨stack, hbefore, hrest⟩ := reduceAll_append_eq_ok_iff.1 (eval_eq_ok_iff.1 h)
  rw [reduceAll_append, reduceAll_map_raise, ← reduceAll_map_raise (level + 1),
    ← reduceAll_append] at hrest
  have hstack : stack ≠ [] := by
    rintro rfl
    have hbalance := Runs.one_le_balance ⟨[], hbefore⟩ hne
    have hlength : (([] : List Binary32).length : Int) = ([] : List Binary32).length + _ :=
      balance_of_reduceAll_eq_ok hbefore
    rw [List.length_nil] at hlength
    omega
  obtain ⟨out, hout, hlength⟩ := exists_reduceAll_chained hstack hrest
  obtain ⟨w, rfl⟩ := List.length_eq_one_iff.1 hlength
  exact ⟨w, eval_eq_ok_iff.2 (reduceAll_append_eq_ok_iff.2 ⟨stack, hbefore, hout⟩)⟩

/-- A sequence that starts with a function has no value. -/
theorem eval_function_cons (f : Builtin) (level : Nat) (tokens : List Token) :
    eval ⟨f.token level :: tokens⟩ = .error .incomplete := by
  have hfirst : reduce [] (f.token level) = .error .incomplete := by
    simp [Builtin.token, Operation.priced, reduce]
  have hall : reduceAll [] (f.token level :: tokens) = .error .incomplete := by
    rw [← List.singleton_append, reduceAll_append, reduceAll_singleton, hfirst]
    rfl
  simp only [eval, hall]

end Postfix

/-! ## Texts -/

/-- A text with the application `f (g X)` in it. -/
def nestedCall (f g : Builtin) (A X B : String) : String :=
  A ++ " " ++ f.name ++ " (" ++ g.name ++ " " ++ X ++ ") " ++ B

/-- A text with the application `f g X` in it. -/
def chainedCall (f g : Builtin) (A X B : String) : String :=
  A ++ " " ++ f.name ++ " " ++ g.name ++ " " ++ X ++ " " ++ B

theorem ofText_append_blank_cons (first second : List Char) :
    Lexeme.ofText (first ++ ' ' :: second) = Lexeme.ofText first ++ Lexeme.ofText second := by
  rw [Lexeme.ofText_append_cons_of_isLone (by decide),
    Lexeme.ofText_singleton_of_isBlank (by decide), List.nil_append]

theorem Builtin.ofText_name (f : Builtin) : Lexeme.ofText f.name.toList = [.name f.name] := by
  cases f <;> decide

theorem ofText_nested (f g : Builtin) (A X B : String) :
    Lexeme.ofText (nestedCall f g A X B).toList =
      Lexeme.ofText A.toList ++ ((.name f.name :: .opening ::
        (.name g.name :: Lexeme.ofText X.toList ++ [.closing])) ++ Lexeme.ofText B.toList) := by
  have htext : (nestedCall f g A X B).toList =
      (A.toList ++ ' ' :: (f.name.toList ++ ' ' :: [])) ++
        '(' :: ((g.name.toList ++ ' ' :: X.toList) ++ ')' :: ([] ++ ' ' :: B.toList)) := by
    simp [nestedCall]
  rw [htext, ofText_group]
  simp only [ofText_append_blank_cons, Builtin.ofText_name, Lexeme.ofText_nil]
  simp

theorem ofText_chained (f g : Builtin) (A X B : String) :
    Lexeme.ofText (chainedCall f g A X B).toList =
      Lexeme.ofText A.toList ++ ((.name f.name :: .name g.name :: Lexeme.ofText X.toList) ++
        Lexeme.ofText B.toList) := by
  have htext : (chainedCall f g A X B).toList =
      A.toList ++ ' ' :: (f.name.toList ++ ' ' :: (g.name.toList ++ ' ' ::
        (X.toList ++ ' ' :: B.toList))) := by
    simp [chainedCall]
  rw [htext]
  simp only [ofText_append_blank_cons, Builtin.ofText_name]
  simp

/-- Where `f (g X)` makes a formula with a value, `f g X` lists `f` not behind its argument, but
before it.  So it has a value exactly if anything is listed before. -/
theorem exists_listing_chained {m : Bindings} {f g : Builtin} {A X B : String} {v : Binary32}
    (hf : m[f.name]? = none) (hg : m[g.name]? = none) (hX : IsAtom m X)
    (h : evaluate (nestedCall f g A X B) m = .ok v) :
    ∃ p q r : Postfix, toPostfix (nestedCall f g A X B) m = .ok p ∧
      toPostfix (chainedCall f g A X B) m = .ok q ∧ toPostfix X m = .ok r ∧
      ∃ before behind,
        p.tokens.map Token.unpriced = before ++ (r.tokens.map Token.unpriced ++
          .inr (.function g.name) :: .inr (.function f.name) :: behind) ∧
        q.tokens.map Token.unpriced = before ++ .inr (.function f.name) ::
          (r.tokens.map Token.unpriced ++ .inr (.function g.name) :: behind) ∧
        (before ≠ [] → ∃ w, evaluate (chainedCall f g A X B) m = .ok w) ∧
        (before = [] → evaluate (chainedCall f g A X B) m = .error Fault.incomplete.unplaced) := by
  obtain ⟨tokens, hunits⟩ := hX.exists_emitAll
  obtain ⟨p, hp, heval⟩ := evaluate_eq_ok_iff_exists_eval.1 h
  have hconvert := toPostfix_eq_ok_iff.1 hp
  rw [ofText_nested] at hconvert
  obtain ⟨level, before, behind, rfl, hchained⟩ := exists_convert_chained hf hg hunits hconvert
  rw [← ofText_chained, ← toPostfix_eq_ok_iff] at hchained
  have hinner : toPostfix X m = .ok ⟨(order tokens).map (Token.raise 1)⟩ := by
    rw [toPostfix_eq_ok_iff, ← order_map_raise]
    refine convert_eq_ok_iff.2 ⟨fun hnil => ?_, _, hunits 0, rfl, rfl⟩
    have hread := hunits 0
    simp [hnil] at hread
  refine ⟨_, _, _, hp, hchained, hinner, before.map Token.unpriced, behind.map Token.unpriced,
    ?_, ?_, fun hne => ?_, fun hnil => ?_⟩
  · simp
  · simp
  · obtain ⟨w, hw⟩ := Postfix.exists_eval_chained (fun hnil => hne (by simp [hnil])) heval
    exact ⟨w, evaluate_eq_ok_iff_exists_eval.2 ⟨_, hchained, hw⟩⟩
  · obtain rfl := List.map_eq_nil_iff.1 hnil
    simp [evaluate, hchained, Postfix.value, eval_function_cons, Except.mapError]

/-- A root behind a sum takes the 9 in front of it, and not the absolute value behind it. -/
theorem exists_listing_chained_sum :
    let m : Bindings := {}
    m[Builtin.sqrt.name]? = none ∧ m[Builtin.abs.name]? = none ∧ IsAtom m "4" ∧
      evaluate (nestedCall .sqrt .abs "9 +" "4" "") m = .ok 11 ∧
      ∃ p q r : Postfix, toPostfix (nestedCall .sqrt .abs "9 +" "4" "") m = .ok p ∧
        toPostfix (chainedCall .sqrt .abs "9 +" "4" "") m = .ok q ∧ toPostfix "4" m = .ok r ∧
        ∃ before behind,
          p.tokens.map Token.unpriced = before ++ (r.tokens.map Token.unpriced ++
            .inr (.function "abs") :: .inr (.function "sqrt") :: behind) ∧
          q.tokens.map Token.unpriced = before ++ .inr (.function "sqrt") ::
            (r.tokens.map Token.unpriced ++ .inr (.function "abs") :: behind) ∧
          (before ≠ [] → ∃ w, evaluate (chainedCall .sqrt .abs "9 +" "4" "") m = .ok w) ∧
          (before = [] → evaluate (chainedCall .sqrt .abs "9 +" "4" "") m =
            .error Fault.incomplete.unplaced) := by
  intro m
  have hf : m[Builtin.sqrt.name]? = none := by decide +kernel
  have hg : m[Builtin.abs.name]? = none := by decide +kernel
  have hX : IsAtom m (String.ofList ['4']) :=
    .literal (.whole (List.cons_ne_nil _ _) (List.forall_mem_singleton.2 (by decide)))
  have h : evaluate (nestedCall .sqrt .abs "9 +" "4" "") m = .ok 11 := by decide +kernel
  exact ⟨hf, hg, hX, h, exists_listing_chained hf hg hX h⟩

/-- A bracket around an application makes a difference to the function in front of it. -/
theorem not_forall_evaluate_chained_eq :
    ¬∀ (m : Bindings) (f g : Builtin) (A X B : String) (v : Binary32),
      m[f.name]? = none → m[g.name]? = none → IsAtom m X →
        evaluate (nestedCall f g A X B) m = .ok v → evaluate (chainedCall f g A X B) m = .ok v := by
  intro hall
  have hX : IsAtom {} (String.ofList ['4']) :=
    .literal (.whole (List.cons_ne_nil _ _) (List.forall_mem_singleton.2 (by decide)))
  have hnested : evaluate (nestedCall .sqrt .abs "9 +" "4" "") {} = .ok 11 := by decide +kernel
  have hchained : evaluate (chainedCall .sqrt .abs "9 +" "4" "") {} = .ok 7 := by decide +kernel
  have h := hall {} .sqrt .abs "9 +" "4" "" 11 (by decide +kernel) (by decide +kernel) hX hnested
  exact absurd (Except.ok.inj (hchained.symm.trans h)) (by decide)

end Formula
