import Formula.Tree
import Formula.Proofs.Ordering

/-!
# Formula.Proofs.Reduction

What reducing a sequence does to the stack.

Reducing takes operands from the top of the stack only, so what lies below may be anything, and a
part that reduces to one value may be exchanged for that value.  How much the stack grows is
settled by the tokens alone: a number adds one value, a binary operator takes one away.

* `reduce_eq_ok_iff` — the ways in which a token is reduced;
* `reduceAll_eq_error_iff` — a sequence cannot be reduced because one of its tokens cannot;
* `reduceAll_append_stack` — what lies below the operands stays;
* `eval_append_append` — a part with a value may be exchanged for that value;
* `balance_of_reduceAll_eq_ok` — the stack grows by the balance of the tokens;
* `map_eval` — whether a sequence has a value, and why not, shows from the depth of the stack alone;
* `Tree.postOrder_injective` — no two trees have the same listing.
-/

namespace Formula

open Infix

/-! ## Passes that fail -/

/-- A pass over a list fails at one of its elements, in the state that those before it leave. -/
theorem foldlM_eq_error_iff {f : β → α → Except ε β} {b : β} {l : List α} {e : ε} :
    l.foldlM f b = .error e ↔
      ∃ front a back b', l = front ++ a :: back ∧ front.foldlM f b = .ok b' ∧
        f b' a = .error e := by
  constructor
  · intro h
    induction l generalizing b with
    | nil => cases h
    | cons a l ih =>
        rw [List.foldlM_cons] at h
        cases ha : f b a with
        | error found =>
            rw [ha] at h
            exact ⟨[], a, l, b, rfl, rfl, ha.trans h⟩
        | ok b₁ =>
            rw [ha] at h
            obtain ⟨front, a', back, b', rfl, hfront, hstep⟩ := ih h
            exact ⟨a :: front, a', back, b', rfl, by rw [List.foldlM_cons, ha]; exact hfront, hstep⟩
  · rintro ⟨front, a, back, b', rfl, hfront, hstep⟩
    rw [List.foldlM_append, hfront]
    show (a :: back).foldlM f b' = _
    rw [List.foldlM_cons, hstep]
    rfl

/-! ## Rules of reduction -/

namespace Postfix

/-- The ways in which a token is reduced. -/
inductive Reduces : List Binary32 → Token → List Binary32 → Prop
  | number (value : Binary32) (stack : List Binary32) :
      Reduces stack (.number value) (value :: stack)
  | binary (op : BinaryOp) (precedence : Nat) (left right : Binary32) (rest : List Binary32) :
      Reduces (right :: left :: rest) (.operator ⟨.binary op.symbol, precedence⟩)
        (op.apply left right :: rest)
  | call (f : Builtin) (precedence : Nat) (operand : Binary32) (rest : List Binary32) :
      Reduces (operand :: rest) (.operator ⟨.function f.name, precedence⟩)
        (f.apply operand :: rest)

/-- A token is reduced in one of these ways, if it can be reduced at all. -/
theorem reduce_eq_ok_iff {stack stack' : List Binary32} {t : Token} :
    reduce stack t = .ok stack' ↔ Reduces stack t stack' := by
  constructor
  · intro h
    cases t with
    | number value =>
        obtain rfl := Except.ok.inj h
        exact .number value stack
    | operator o =>
        obtain ⟨op, precedence⟩ := o
        cases op with
        | binary symbol =>
            rcases stack with _ | ⟨right, _ | ⟨left, rest⟩⟩
            · contradiction
            · contradiction
            · cases hop : BinaryOp.ofSymbol? symbol with
              | none => simp [reduce, hop] at h
              | some op =>
                  simp only [reduce, hop, Except.ok.injEq] at h
                  obtain rfl := BinaryOp.ofSymbol?_eq_some_iff.1 hop
                  exact h ▸ .binary op precedence left right rest
        | function name =>
            cases hf : Builtin.ofName? name with
            | none => simp [reduce, hf] at h
            | some f =>
                rcases stack with _ | ⟨operand, rest⟩
                · simp [reduce, hf] at h
                · simp only [reduce, hf, Except.ok.injEq] at h
                  obtain rfl := Builtin.ofName?_eq_some_iff.1 hf
                  exact h ▸ .call f precedence operand rest
  · rintro (_ | _ | _) <;> simp [reduce]

/-- Tokens are reduced exactly if the first is, and then the others. -/
theorem reduceAll_cons_eq_ok_iff {stack stack' : List Binary32} {t : Token} {tokens : List Token} :
    reduceAll stack (t :: tokens) = .ok stack' ↔
      ∃ stack₁, Reduces stack t stack₁ ∧ reduceAll stack₁ tokens = .ok stack' := by
  simp only [← reduce_eq_ok_iff]
  cases h : reduce stack t <;> simp [reduceAll_cons, h, bind, Except.bind]

/-- Two parts are reduced exactly if the second is reduced on what the first leaves. -/
theorem reduceAll_append_eq_ok_iff {stack stack' : List Binary32} {first second : List Token} :
    reduceAll stack (first ++ second) = .ok stack' ↔
      ∃ stack₁, reduceAll stack first = .ok stack₁ ∧ reduceAll stack₁ second = .ok stack' := by
  rw [reduceAll_append]
  cases reduceAll stack first <;> simp [bind, Except.bind]

/-- Reducing tokens fails at one of them, on the stack that those before it leave. -/
theorem reduceAll_eq_error_iff {stack : List Binary32} {tokens : List Token} {fault : Fault} :
    reduceAll stack tokens = .error fault ↔
      ∃ front t back stack', tokens = front ++ t :: back ∧ reduceAll stack front = .ok stack' ∧
        reduce stack' t = .error fault :=
  foldlM_eq_error_iff

/-! ## What lies below the operands -/

/-- A token that is reduced leaves alone what lies below its operands. -/
theorem Reduces.append_stack {stack stack' : List Binary32} {t : Token}
    (h : Reduces stack t stack') (below : List Binary32) :
    Reduces (stack ++ below) t (stack' ++ below) := by
  cases h with
  | number value => exact .number value _
  | binary op precedence left right rest => exact .binary op precedence left right _
  | call f precedence operand rest => exact .call f precedence operand _

/-- Tokens that are reduced leave alone what lies below their operands. -/
theorem reduceAll_append_stack {stack stack' : List Binary32} {tokens : List Token}
    (h : reduceAll stack tokens = .ok stack') (below : List Binary32) :
    reduceAll (stack ++ below) tokens = .ok (stack' ++ below) := by
  induction tokens generalizing stack with
  | nil =>
      obtain rfl := Except.ok.inj h
      rfl
  | cons t tokens ih =>
      obtain ⟨stack₁, ht, htokens⟩ := reduceAll_cons_eq_ok_iff.1 h
      exact reduceAll_cons_eq_ok_iff.2 ⟨_, ht.append_stack below, ih htokens⟩

/-- A part that reduces to a value may be exchanged for that value anywhere in a sequence. -/
theorem eval_append_append {part : List Token} {value : Binary32}
    (h : reduceAll [] part = .ok [value]) (front back : List Token) :
    eval ⟨front ++ (part ++ back)⟩ = eval ⟨front ++ (.number value :: back)⟩ := by
  have hpart (stack : List Binary32) :
      reduceAll stack (part ++ back) = reduceAll stack (.number value :: back) := by
    have hstack : reduceAll stack part = .ok (value :: stack) := reduceAll_append_stack h stack
    rw [reduceAll_append_of_eq_ok hstack]
    rfl
  simp only [eval, reduceAll_append, hpart]

/-! ## Precedences -/

/-- Reducing looks at no precedence. -/
theorem reduce_raise (k : Nat) (stack : List Binary32) (t : Token) :
    reduce stack (t.raise k) = reduce stack t := by
  cases t with
  | number value => rfl
  | operator o =>
      obtain ⟨op, precedence⟩ := o
      cases op <;> rfl

/-- Further brackets around a sequence do not change what it reduces to. -/
theorem reduceAll_map_raise (k : Nat) (stack : List Binary32) (tokens : List Token) :
    reduceAll stack (tokens.map (Token.raise k)) = reduceAll stack tokens := by
  simp only [reduceAll, List.foldlM_map, reduce_raise]

end Postfix

/-! ## Balance -/

/-- How many values a token adds to the stack. -/
def Token.balance : Token → Int
  | .number _ => 1
  | .operator ⟨.binary _, _⟩ => -1
  | .operator ⟨.function _, _⟩ => 0

/-- How many values tokens add to the stack. -/
def balance : List Token → Int
  | [] => 0
  | t :: tokens => t.balance + balance tokens

@[simp] theorem balance_nil : balance [] = 0 := rfl

@[simp] theorem balance_cons (t : Token) (tokens : List Token) :
    balance (t :: tokens) = t.balance + balance tokens := rfl

@[simp] theorem balance_append (first second : List Token) :
    balance (first ++ second) = balance first + balance second := by
  induction first with
  | nil => simp
  | cons t first ih => rw [List.cons_append, balance_cons, balance_cons, ih, Int.add_assoc]

/-- The balance does not depend on the order of the tokens. -/
theorem balance_perm {tokens tokens' : List Token} (h : tokens.Perm tokens') :
    balance tokens = balance tokens' := by
  induction h with
  | nil => rfl
  | cons t _ ih => rw [balance_cons, balance_cons, ih]
  | swap t t' tokens =>
      simp only [balance_cons]
      omega
  | trans _ _ ih₁ ih₂ => rw [ih₁, ih₂]

namespace Postfix

/-- The stack grows by the balance of the tokens. -/
theorem balance_of_reduceAll_eq_ok {stack stack' : List Binary32} {tokens : List Token}
    (h : reduceAll stack tokens = .ok stack') :
    (stack'.length : Int) = stack.length + balance tokens := by
  induction tokens generalizing stack with
  | nil =>
      obtain rfl := Except.ok.inj h
      simp
  | cons t tokens ih =>
      obtain ⟨stack₁, ht, htokens⟩ := reduceAll_cons_eq_ok_iff.1 h
      have hstack := ih htokens
      have hfirst : (stack₁.length : Int) = stack.length + t.balance := by
        cases ht with
        | number => simp [Token.balance]
        | binary =>
            simp only [List.length_cons, Token.balance]
            omega
        | call => simp [Token.balance]
      rw [balance_cons]
      omega

/-- Putting tokens in order keeps their balance. -/
theorem balance_order (tokens : List Token) : balance (order tokens) = balance tokens :=
  balance_perm (perm_order tokens)

/-- Tokens that are reduced to one value, once they are in order, add up to one. -/
theorem balance_eq_one_of_reduceAll_order {tokens : List Token} {v : Binary32}
    (h : reduceAll [] (order tokens) = .ok [v]) : balance tokens = 1 := by
  have hlength := balance_of_reduceAll_eq_ok h
  rw [balance_order] at hlength
  simpa using hlength.symm

end Postfix

/-! ## Depth -/

namespace Postfix

/-- How many values there are after a token is reduced on `depth` of them. -/
def reduceDepth (depth : Nat) : Token → Except Fault Nat
  | .number _ => .ok (depth + 1)
  | .operator ⟨.binary symbol, _⟩ =>
    if depth < 2 then .error .incomplete
    else if (BinaryOp.ofSymbol? symbol).isSome then .ok (depth - 1)
    else .error (.unknownSymbol symbol)
  | .operator ⟨.function name, _⟩ =>
    if (Builtin.ofName? name).isNone then .error (.unknownFunction name)
    else if depth < 1 then .error .incomplete
    else .ok depth

/-- Reducing a token changes the depth of the stack, or fails, whatever the values are. -/
theorem map_length_reduce (stack : List Binary32) (t : Token) :
    (reduce stack t).map List.length = reduceDepth stack.length t := by
  cases t with
  | number value => rfl
  | operator o =>
      obtain ⟨op, precedence⟩ := o
      cases op with
      | binary symbol =>
          rcases stack with _ | ⟨right, _ | ⟨left, rest⟩⟩
          · rfl
          · rfl
          · cases h : BinaryOp.ofSymbol? symbol <;> simp [reduce, reduceDepth, h, Except.map]
      | function name =>
          cases h : Builtin.ofName? name <;> cases stack <;>
            simp [reduce, reduceDepth, h, Except.map]

/-- Reducing tokens changes the depth of the stack, or fails, whatever the values are. -/
theorem map_length_reduceAll (stack : List Binary32) (tokens : List Token) :
    (reduceAll stack tokens).map List.length = tokens.foldlM reduceDepth stack.length := by
  induction tokens generalizing stack with
  | nil => rfl
  | cons t tokens ih =>
      rw [reduceAll_cons, List.foldlM_cons, ← map_length_reduce]
      cases reduce stack t with
      | error fault => rfl
      | ok stack₁ => exact ih stack₁

/-- Whether a sequence has a value, and why not, shows from the depth of the stack alone. -/
theorem map_eval (p : Postfix) :
    p.eval.map (fun _ => ()) =
      p.tokens.foldlM reduceDepth 0 >>= fun depth =>
        if depth = 1 then .ok () else .error .incomplete := by
  have hdepth := map_length_reduceAll [] p.tokens
  rw [List.length_nil] at hdepth
  rw [← hdepth, eval]
  cases reduceAll [] p.tokens with
  | error fault => rfl
  | ok stack =>
      rcases stack with _ | ⟨value, _ | ⟨below, rest⟩⟩
      · rfl
      · rfl
      · simp [Except.map, bind, Except.bind]

end Postfix

/-! ## Listings of trees -/

namespace Tree

/-- Takes an operation of a listing in on a stack of trees, the latest first. -/
def stack? (trees : List Tree) : Binary32 ⊕ Operation → Option (List Tree)
  | .inl value => some (.number value :: trees)
  | .inr (.binary symbol) =>
      match BinaryOp.ofSymbol? symbol, trees with
      | some op, right :: left :: rest => some (.binary op left right :: rest)
      | _, _ => none
  | .inr (.function name) =>
      match Builtin.ofName? name, trees with
      | some f, operand :: rest => some (.call f operand :: rest)
      | _, _ => none

/-- Taking in the listing of a tree puts that tree on the stack. -/
theorem foldlM_stack?_postOrder (t : Tree) (trees : List Tree) :
    t.postOrder.foldlM stack? trees = some (t :: trees) := by
  induction t generalizing trees with
  | number value => rfl
  | call f operand ih =>
      rw [postOrder, List.foldlM_append, ih]
      simp [stack?]
  | binary op left right ihl ihr =>
      rw [postOrder, List.foldlM_append, ihl, Option.bind_eq_bind, Option.bind_some,
        List.foldlM_append, ihr]
      simp [stack?]

/-- No two trees have the same listing. -/
theorem postOrder_injective : Function.Injective postOrder := by
  intro t u h
  have ht := foldlM_stack?_postOrder t []
  rw [h, foldlM_stack?_postOrder u []] at ht
  simpa using ht.symm

end Tree

/-! ## Values of texts -/

/-- A text has a value exactly if its postfix order has. -/
theorem evaluate_eq_ok_iff_exists_eval {text : String} {m : Bindings} {v : Binary32} :
    evaluate text m = .ok v ↔ ∃ p, toPostfix text m = .ok p ∧ p.eval = .ok v := by
  unfold evaluate
  cases toPostfix text m with
  | error failure => simp
  | ok p => cases h : p.eval <;> simp [Postfix.value, h, Except.mapError]

/-- A text has a value exactly if its lexemes are read, no bracket is left open, and the tokens in
postfix order reduce to that value alone. -/
theorem evaluate_eq_ok_iff {text : String} {m : Bindings} {v : Binary32} :
    evaluate text m = .ok v ↔
      ∃ e, emitAll m {} (Lexeme.ofText text.toList) = .ok e ∧ e.state.level = 0 ∧
        Postfix.reduceAll [] (order e.tokens) = .ok [v] := by
  simp only [evaluate_eq_ok_iff_exists_eval, toPostfix_eq_ok_iff, convert_eq_ok_iff,
    Postfix.eval_eq_ok_iff]
  constructor
  · rintro ⟨_, ⟨-, e, he, hlevel, rfl⟩, hreduce⟩
    exact ⟨e, he, hlevel, hreduce⟩
  · rintro ⟨e, he, hlevel, hreduce⟩
    refine ⟨_, ⟨fun hnil => ?_, e, he, hlevel, rfl⟩, hreduce⟩
    rw [hnil] at he
    obtain rfl := Except.ok.inj he
    cases hreduce

end Formula
