import ArrowCalc.Machine
import Mathlib.Data.Nat.Notation
import Mathlib.Logic.Function.Basic

/-!
# A reference interpreter

The interpreter of this module has neither a stack nor frames. It passes one environment along,
which says for each name what it means, and returns values. A declaration changes the environment. A
call evaluates the callee and checks it, evaluates the arguments in the environment of the caller,
and evaluates the body in that environment with the parameters bound on top. When the body is done,
with or without success, the environment of the caller is back.

Like the machine, it takes the number of levels that may be nested, so that it is a total function.
The number has no other influence: a result that was reached within one limit is the result within
every larger one. So there is one result at most, whatever the limit (`Evaluates`).

## Main definitions

* `Reference.eval` — the interpreter
* `Reference.Evaluates` — its result, with no limit

## Main results

* `Reference.extends_eval` — a larger limit keeps the results
* `Reference.Evaluates.unique` — there is one result at most
-/

namespace ArrowCalc

/-! ### Runs of a bind -/

section Bind

variable {ε σ α β : Type} {x : EStateM ε σ α} {f : α → EStateM ε σ β} {s s' : σ}

theorem bind_of_ok {a : α} (h : x s = .ok a s') : (x >>= f) s = f a s' := by
  show EStateM.bind x f s = f a s'
  rw [EStateM.bind, h]

theorem bind_of_error {e : ε} (h : x s = .error e s') : (x >>= f) s = .error e s' := by
  show EStateM.bind x f s = .error e s'
  rw [EStateM.bind, h]

end Bind

namespace Reference

/-! ### The interpreter -/

/-- What each name means. -/
abbrev Env := String → Option Value

/-- Binds names one after the other, so that the last binding of a name counts. -/
def Env.bind (env : Env) (bindings : List (String × Value)) : Env :=
  bindings.foldl (fun env b => Function.update env b.1 (some b.2)) env

/-- Works in an environment. What was declared stays declared when the work fails. -/
abbrev Run := EStateM Error Env

/-- Gives the value of an operation, or gives up if there is none. -/
def ofResult : Except RuntimeError Value → Run Value
  | .ok value => pure value
  | .error error => throw (.runtime error)

/-- Evaluates statements by `eval` and gives the value of the last one. No statements have no
value. -/
def evalBlock (eval : Expr → Run Value) : List Expr → Run Value
  | [] => throw (.runtime (.stackUnderflow .block))
  | [e] => eval e
  | e :: es => do
    let _ ← eval e
    evalBlock eval es

/-- Evaluates arguments by `eval`. -/
def evalArgs (eval : Expr → Run Value) : List Expr → Run (List Value)
  | [] => pure []
  | e :: es => do
    let value ← eval e
    let values ← evalArgs eval es
    pure (value :: values)

/-- Works with some names bound, and goes back to the environment as it was before. -/
def locally (bindings : List (String × Value)) (body : Run Value) : Run Value := fun env =>
  match body (env.bind bindings) with
  | .ok value _ => .ok value env
  | .error error _ => .error error env

/-- The value of an expression; at most `depth` levels may be nested. -/
def eval (depth : ℕ) (e : Expr) : Run Value :=
  match depth with
  | 0 => throw .tooDeep
  | depth + 1 =>
    match e with
    | .malformed message => throw (.malformed message)
    | .block statements => evalBlock (eval depth) statements
    | .int value => pure (.num (Float.ofInt value))
    | .binary op left right => do
      let a ← eval depth left
      let b ← eval depth right
      ofResult (Machine.applyBinary op a b)
    | .unary op operand => do
      let a ← eval depth operand
      ofResult (Machine.applyUnary op a)
    | .paren inner => eval depth inner
    | .declare name value => do
      let a ← eval depth value
      modify fun env => Function.update env name (some a)
      pure a
    | .var name => do
      match (← get) name with
      | some value => pure value
      | none => throw (.runtime (.unknownVariable name))
    | .func params body => pure (.func params body)
    | .call callee args => do
      match ← eval depth callee with
      | .num a => throw (.runtime (.notAFunction (Value.num a).text))
      | .func params body =>
        if params.length = args.length then
          let values ← evalArgs (eval depth) args
          locally (params.zip values) (eval depth body)
        else throw (.runtime (.wrongArity params.length args.length))

/-! ### Larger limits -/

/-- The work came to an end before the limit was reached. -/
def Returns {σ α : Type} (r : EStateM.Result Error σ α) : Prop := ∀ s, r ≠ .error .tooDeep s

/-- What `x` does within its limit, `y` does too. -/
def Extends {σ α : Type} (x y : EStateM Error σ α) : Prop := ∀ s, Returns (x s) → y s = x s

theorem Extends.refl {σ α : Type} (x : EStateM Error σ α) : Extends x x := fun _ _ => rfl

theorem Extends.trans {σ α : Type} {x y z : EStateM Error σ α} (hxy : Extends x y)
    (hyz : Extends y z) : Extends x z := by
  intro s hs
  have hy := hxy s hs
  rw [← hy] at hs ⊢
  exact hyz s hs

theorem Extends.bind {σ α β : Type} {x y : EStateM Error σ α} {f g : α → EStateM Error σ β}
    (h : Extends x y) (hfg : ∀ a, Extends (f a) (g a)) : Extends (x >>= f) (y >>= g) := by
  intro s hs
  cases hx : x s with
  | ok a s' =>
    have hy : y s = .ok a s' := by rw [h s (by rw [hx]; exact fun _ => nofun), hx]
    rw [bind_of_ok hx] at hs ⊢
    rw [bind_of_ok hy]
    exact hfg a s' hs
  | error e s' =>
    have hreturns : Returns (x s) := by
      rw [bind_of_error hx] at hs
      rw [hx]
      intro s₀ h₀
      cases h₀
      exact hs s' rfl
    have hy : y s = .error e s' := by rw [h s hreturns, hx]
    rw [bind_of_error hx, bind_of_error hy]

theorem extends_evalBlock {eval eval' : Expr → Run Value} (h : ∀ e, Extends (eval e) (eval' e))
    (es : List Expr) : Extends (evalBlock eval es) (evalBlock eval' es) := by
  induction es with
  | nil => exact .refl _
  | cons e es ih =>
    cases es with
    | nil => exact h e
    | cons e' es => exact (h e).bind fun _ => ih

theorem extends_evalArgs {eval eval' : Expr → Run Value} (h : ∀ e, Extends (eval e) (eval' e))
    (es : List Expr) : Extends (evalArgs eval es) (evalArgs eval' es) := by
  induction es with
  | nil => exact .refl _
  | cons e es ih => exact (h e).bind fun _ => ih.bind fun _ => .refl _

theorem Extends.locally {x y : Run Value} (h : Extends x y) (bindings : List (String × Value)) :
    Extends (locally bindings x) (locally bindings y) := by
  intro env hreturns
  have hbody : Returns (x (env.bind bindings)) := by
    intro s hs
    rw [Reference.locally, hs] at hreturns
    exact hreturns env rfl
  rw [Reference.locally, Reference.locally, h _ hbody]

/-- One level more keeps the results. -/
theorem extends_eval_succ (depth : ℕ) (e : Expr) : Extends (eval depth e) (eval (depth + 1) e) := by
  induction depth generalizing e with
  | zero => exact fun s h => absurd rfl (h s)
  | succ depth ih =>
    cases e with
    | malformed | int | var | func => exact .refl _
    | block statements => exact extends_evalBlock ih statements
    | binary op left right =>
      exact (ih left).bind fun _ => (ih right).bind fun _ => .refl _
    | unary op operand => exact (ih operand).bind fun _ => .refl _
    | paren inner => exact ih inner
    | declare name value => exact (ih value).bind fun _ => .refl _
    | call callee args =>
      refine (ih callee).bind fun f => ?_
      cases f with
      | num a => exact .refl _
      | func params body =>
        by_cases harity : params.length = args.length
        · simp only [harity, if_true]
          exact (extends_evalArgs ih args).bind fun _ => (ih body).locally _
        · simp only [harity, if_false]
          exact .refl _

/-- A larger limit keeps the results. -/
theorem extends_eval {depth depth' : ℕ} (h : depth ≤ depth') (e : Expr) :
    Extends (eval depth e) (eval depth' e) := by
  induction h with
  | refl => exact .refl _
  | step _ ih => exact ih.trans (extends_eval_succ _ e)

/-- The interpreter comes to the result `r` within some limit. -/
def Evaluates (env : Env) (e : Expr) (r : EStateM.Result Error Env Value) : Prop :=
  Returns r ∧ ∃ depth, eval depth e env = r

/-- The result does not depend on the limit. -/
theorem Evaluates.unique {env : Env} {e : Expr} {r r' : EStateM.Result Error Env Value}
    (h : Evaluates env e r) (h' : Evaluates env e r') : r = r' := by
  obtain ⟨hr, depth, rfl⟩ := h
  obtain ⟨hr', depth', rfl⟩ := h'
  rcases Nat.le_total depth depth' with hle | hle
  · exact (extends_eval hle e env hr).symm
  · exact extends_eval hle e env hr'

end Reference

end ArrowCalc
