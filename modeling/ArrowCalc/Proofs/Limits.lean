import ArrowCalc.Proofs.Frames

/-!
# The machine without a limit

The machine is given the number of levels that may be nested. As with the reference interpreter, the
number has no other influence: what was reached within one limit is reached within every larger one.
So an evaluation has one result at most, whatever the limit (`Machine.Evaluates`).

The argument does not look at the machine as a whole. `Approximates x w` says of work `x` and of
work `w` that depends on a limit, that a result of `x` is the result of `w` from some limit on. This
is kept by sequencing and by one level of an evaluation, and `w` may be a different machine.

## Main definitions

* `Settles`, `Approximates` — results from some limit on
* `Machine.Evaluates` — the result of an evaluation, with no limit

## Main results

* `Machine.approximates_level` — one level of an evaluation keeps `Approximates`
* `Machine.Evaluates.settles` — a result is the result from some limit on
* `Machine.Evaluates.unique` — there is one result at most
-/

namespace ArrowCalc

open Reference

/-! ### Work that settles -/

section Settles

variable {σ α β : Type}

/-- From some limit on, the work has the result `r`. -/
def Settles (w : ℕ → EStateM Error σ α) (s : σ) (r : EStateM.Result Error σ α) : Prop :=
  ∃ depth, ∀ depth' ≥ depth, w depth' s = r

/-- What `x` does within its limit, `w` does from some limit on. -/
def Approximates (x : EStateM Error σ α) (w : ℕ → EStateM Error σ α) : Prop :=
  ∀ s, Returns (x s) → Settles w s (x s)

theorem Reference.Returns.of_bind {x : EStateM Error σ α} {f : α → EStateM Error σ β} {s : σ}
    (h : Returns ((x >>= f) s)) : Returns (x s) := by
  intro s' hx
  rw [bind_of_error hx] at h
  exact h s' rfl

theorem Settles.unique {w : ℕ → EStateM Error σ α} {s : σ} {r r' : EStateM.Result Error σ α}
    (h : Settles w s r) (h' : Settles w s r') : r = r' := by
  obtain ⟨depth, hr⟩ := h
  obtain ⟨depth', hr'⟩ := h'
  rw [← hr (max depth depth') (Nat.le_max_left _ _), hr' (max depth depth') (Nat.le_max_right _ _)]

/-- Only what happens from some limit on matters. -/
theorem Settles.congr {w w' : ℕ → EStateM Error σ α} {s s' : σ} {r : EStateM.Result Error σ α}
    (h : Settles w s r) {depth : ℕ} (heq : ∀ n ≥ depth, w' n s' = w n s) : Settles w' s' r := by
  obtain ⟨depth', hr⟩ := h
  refine ⟨max depth depth', fun n hn => ?_⟩
  rw [heq n (Nat.le_trans (Nat.le_max_left _ _) hn), hr n (Nat.le_trans (Nat.le_max_right _ _) hn)]

theorem approximates_const (x : EStateM Error σ α) : Approximates x fun _ => x :=
  fun _ _ => ⟨0, fun _ _ => rfl⟩

/-- Work with no limit that is approximated extends what approximates it. -/
theorem Approximates.extends {x y : EStateM Error σ α} (h : Approximates x fun _ => y) :
    Extends x y := by
  intro s hs
  obtain ⟨depth, hy⟩ := h s hs
  exact hy depth (Nat.le_refl _)

theorem Reference.Extends.approximates {x y : EStateM Error σ α} (h : Extends x y) :
    Approximates x fun _ => y :=
  fun s hs => ⟨0, fun _ _ => h s hs⟩

/-- One level more makes no difference to what happens from some limit on. -/
theorem Approximates.of_succ {x : EStateM Error σ α} {w : ℕ → EStateM Error σ α}
    (h : Approximates x fun depth => w (depth + 1)) : Approximates x w := by
  intro s hs
  obtain ⟨depth, hw⟩ := h s hs
  refine ⟨depth + 1, fun n hn => ?_⟩
  obtain ⟨n, rfl⟩ := Nat.exists_eq_add_of_le' hn
  exact hw (n + depth) (Nat.le_add_left _ _)

theorem Approximates.bind {x : EStateM Error σ α} {w : ℕ → EStateM Error σ α}
    {f : α → EStateM Error σ β} {g : α → ℕ → EStateM Error σ β} (h : Approximates x w)
    (hfg : ∀ a, Approximates (f a) (g a)) :
    Approximates (x >>= f) fun depth => w depth >>= fun a => g a depth := by
  intro s hs
  obtain ⟨depth, hw⟩ := h s hs.of_bind
  cases hx : x s with
  | ok a s' =>
    rw [bind_of_ok hx] at hs ⊢
    exact (hfg a s' hs).congr fun n hn => bind_of_ok ((hw n hn).trans hx)
  | error e s' =>
    rw [bind_of_error hx]
    exact ⟨depth, fun n hn => bind_of_error ((hw n hn).trans hx)⟩

end Settles

namespace Machine

/-! ### One level of an evaluation -/

theorem approximates_inFrame {x : Work Unit} {w : ℕ → Work Unit} (h : Approximates x w)
    (frame : Frame) : Approximates (inFrame frame x) fun depth => inFrame frame (w depth) := by
  intro m hm
  have hbody : Returns (x { m with scopes := m.scopes.push frame }) := by
    intro m' hx
    rw [inFrame, hx] at hm
    exact hm _ rfl
  obtain ⟨depth, hw⟩ := h _ hbody
  refine ⟨depth, fun n hn => ?_⟩
  simp only [inFrame, hw n hn]

section Level

variable {visit : Expr → Work Unit} {visit' : ℕ → Expr → Work Unit}

theorem approximates_visitBlock (h : ∀ e, Approximates (visit e) fun depth => visit' depth e)
    (es : List Expr) :
    Approximates (visitBlock visit es) fun depth => visitBlock (visit' depth) es := by
  induction es with
  | nil => exact approximates_const _
  | cons e es ih =>
    cases es with
    | nil => exact h e
    | cons e' es => exact (h e).bind fun _ => (approximates_const _).bind fun _ => ih

theorem approximates_bindArgs (h : ∀ e, Approximates (visit e) fun depth => visit' depth e)
    (bindings : List (String × Expr)) (frame : Frame) :
    Approximates (bindArgs visit bindings frame)
      fun depth => bindArgs (visit' depth) bindings frame := by
  induction bindings generalizing frame with
  | nil => exact approximates_const _
  | cons b bindings ih =>
    exact (h b.2).bind fun _ => (approximates_const _).bind fun _ => ih _

theorem approximates_operands (h : ∀ e, Approximates (visit e) fun depth => visit' depth e)
    (callee : Expr) (args : List Expr) :
    Approximates (operands visit callee args) fun depth => operands (visit' depth) callee args := by
  refine (h callee).bind fun _ => (approximates_const _).bind fun value => ?_
  cases value with
  | num a => exact approximates_const _
  | func params body =>
    by_cases harity : params.length = args.length
    · simp only [if_pos harity]
      exact (approximates_bindArgs h _ _).bind fun _ => approximates_const _
    · simp only [if_neg harity]
      exact approximates_const _

/-- **One level keeps the results** if what is nested does. -/
theorem approximates_level (h : ∀ e, Approximates (visit e) fun depth => visit' depth e)
    (e : Expr) :
    Approximates (level inFrame visit e) fun depth => level inFrame (visit' depth) e := by
  cases e with
  | malformed | int | var | func => exact approximates_const _
  | block statements => exact approximates_visitBlock h statements
  | binary op left right =>
    exact (h left).bind fun _ => (h right).bind fun _ => approximates_const _
  | unary op operand => exact (h operand).bind fun _ => approximates_const _
  | paren inner => exact h inner
  | declare name value => exact (h value).bind fun _ => approximates_const _
  | call callee args =>
    exact (approximates_operands h callee args).bind fun entry =>
      approximates_inFrame (h entry.2) entry.1

end Level

/-! ### Larger limits -/

/-- One level more keeps the results. -/
theorem extends_visit_succ (depth : ℕ) (e : Expr) :
    Extends (visit depth e) (visit (depth + 1) e) := by
  induction depth generalizing e with
  | zero => exact fun m h => absurd rfl (h m)
  | succ depth ih =>
    rw [visit_succ depth, visit_succ (depth + 1)]
    exact (approximates_level (fun e => (ih e).approximates) e).extends

/-- A larger limit keeps the results. -/
theorem extends_visit {depth depth' : ℕ} (h : depth ≤ depth') (e : Expr) :
    Extends (visit depth e) (visit depth' e) := by
  induction h with
  | refl => exact .refl _
  | step _ ih => exact ih.trans (extends_visit_succ _ e)

theorem extends_eval {depth depth' : ℕ} (h : depth ≤ depth') (e : Expr) :
    Extends (eval depth e) (eval depth' e) :=
  (extends_visit h e).bind fun _ => .refl _

/-! ### Results -/

/-- The machine evaluates the expression to the result `r`, within some limit. -/
def Evaluates (m : Machine) (e : Expr) (r : EStateM.Result Error Machine Value) : Prop :=
  Returns r ∧ ∃ depth, eval depth e m = r

variable {m : Machine} {e : Expr} {r r' : EStateM.Result Error Machine Value}

theorem evaluates_eval {depth : ℕ} (h : Returns (eval depth e m)) :
    Evaluates m e (eval depth e m) :=
  ⟨h, depth, rfl⟩

/-- A result is the result from some limit on. -/
theorem Evaluates.settles (h : Evaluates m e r) : Settles (fun depth => eval depth e) m r := by
  obtain ⟨hr, depth, rfl⟩ := h
  exact ⟨depth, fun depth' hle => extends_eval hle e m hr⟩

theorem evaluates_of_settles (hr : Returns r) (h : Settles (fun depth => eval depth e) m r) :
    Evaluates m e r := by
  obtain ⟨depth, heval⟩ := h
  exact ⟨hr, depth, heval depth (Nat.le_refl _)⟩

/-- The result does not depend on the limit. -/
theorem Evaluates.unique (h : Evaluates m e r) (h' : Evaluates m e r') : r = r' :=
  h.settles.unique h'.settles

end Machine

end ArrowCalc
