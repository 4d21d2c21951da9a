import ArrowCalc.Proofs.Limits

/-!
# Parentheses

Parentheses group, and they mean nothing. `Expr.eraseParens` takes all of them out of a tree, also
out of the bodies of functions. A tree and what is left of it evaluate alike.

The two evaluations do not hold the same values, since the bodies of functions have lost their
parentheses too. Where one has a value, the other has the value without parentheses, and so it is
with the frames and the whole machine. Nobody can tell the difference, since the text of a function
does not show its body.

A pair of parentheses takes one level of nesting. So the two evaluations do not fit into the same
limit. `Machine.visitCore` is a machine that looks through the parentheses around an expression
first. It has the results of the machine, though within other limits, and it does the same with and
without parentheses within every limit.

## Main definitions

* `Expr.eraseParens`, `Value.eraseParens`, `Machine.eraseParens` — without parentheses
* `Expr.core` — without the parentheses around the whole expression
* `Machine.visitCore` — the machine to which parentheses are free
* `Machine.Commutes` — two pieces of work that do the same, with and without parentheses

## Main results

* `Machine.approximates_visitCore`, `Machine.approximates_visit` — both machines have the same
  results
* `Machine.commutes_visitCore` — parentheses make no difference to the second one
* `Expr.evaluates_eraseParens_iff` — parentheses make no difference to an evaluation
-/

namespace ArrowCalc

open Reference

/-! ### Trees without parentheses

Only the parentheses around the root matter for one step of the machine, and those deeper inside for
later steps. So there is a function for each. -/

mutual

/-- The tree with every pair of parentheses replaced by what stands in it. -/
def Expr.eraseParens : Expr → Expr
  | .malformed message => .malformed message
  | .block statements => .block (Expr.eraseEach statements)
  | .int value => .int value
  | .binary op left right => .binary op left.eraseParens right.eraseParens
  | .unary op operand => .unary op operand.eraseParens
  | .paren inner => inner.eraseParens
  | .declare name value => .declare name value.eraseParens
  | .var name => .var name
  | .func params body => .func params body.eraseParens
  | .call callee args => .call callee.eraseParens (Expr.eraseEach args)

/-- The trees of a list without parentheses. -/
def Expr.eraseEach : List Expr → List Expr
  | [] => []
  | e :: es => e.eraseParens :: Expr.eraseEach es

end

namespace Expr

theorem eraseEach_eq_map (es : List Expr) : eraseEach es = es.map eraseParens := by
  induction es with
  | nil => rfl
  | cons e es ih => rw [eraseEach, ih, List.map_cons]

/-- The expression in the parentheses around it, if there are any. -/
def core : Expr → Expr
  | .paren inner => inner.core
  | e => e

/-- The core is not a pair of parentheses. -/
theorem core_ne_paren (inner : Expr) : ∀ e : Expr, e.core ≠ .paren inner
  | .paren e => core_ne_paren inner e
  | .malformed _ | .block _ | .int _ | .binary _ _ _ | .unary _ _ | .declare _ _ | .var _
  | .func _ _ | .call _ _ => nofun

/-- The parentheses around an expression are among those that are erased. -/
theorem eraseParens_core : ∀ e : Expr, e.core.eraseParens = e.eraseParens
  | .paren e => eraseParens_core e
  | .malformed _ | .block _ | .int _ | .binary _ _ _ | .unary _ _ | .declare _ _ | .var _
  | .func _ _ | .call _ _ => rfl

/-- There are no parentheses left around a tree without parentheses. -/
theorem core_eraseParens : ∀ e : Expr, e.eraseParens.core = e.eraseParens
  | .paren e => core_eraseParens e
  | .malformed _ | .block _ | .int _ | .binary _ _ _ | .unary _ _ | .declare _ _ | .var _
  | .func _ _ | .call _ _ => rfl

end Expr

/-! ### Machines without parentheses

Functions keep their bodies, so erasing goes through all places where a value can be. Every
operation on frames and scopes commutes with it, since names are not touched. -/

/-- The value without the parentheses of its body, if it is a function. -/
def Value.eraseParens : Value → Value
  | .num a => .num a
  | .func params body => .func params body.eraseParens

@[simp] theorem Value.text_eraseParens (v : Value) : v.eraseParens.text = v.text := by
  cases v <;> rfl

namespace Frame

/-- The frame without the parentheses of its values. -/
def eraseParens (f : Frame) : Frame := ⟨f.bindings.map fun b => (b.1, b.2.eraseParens)⟩

/-- A frame binds the same names without parentheses. -/
theorem find?_eraseParens (f : Frame) (name : String) :
    f.eraseParens.find? name = (f.find? name).map Value.eraseParens := by
  obtain ⟨bindings⟩ := f
  simp only [eraseParens, find?]
  induction bindings with
  | nil => rfl
  | cons b bindings ih =>
    rw [List.map_cons, List.lookup_cons, List.lookup_cons, ih]
    cases name == b.1 <;> rfl

theorem eraseParens_insert (f : Frame) (name : String) (value : Value) :
    (f.insert name value).eraseParens = f.eraseParens.insert name value.eraseParens := by
  simp only [insert, eraseParens, List.map_cons, List.filter_map]
  rfl

end Frame

namespace Scopes

/-- The scopes without the parentheses of their values. -/
def eraseParens (s : Scopes) : Scopes := ⟨s.locals.map Frame.eraseParens, s.globals.eraseParens⟩

theorem eraseParens_pop (s : Scopes) : s.pop.eraseParens = s.eraseParens.pop := by
  simp only [pop, eraseParens, List.map_tail]

theorem eraseParens_declare (s : Scopes) (name : String) (value : Value) :
    (s.declare name value).eraseParens = s.eraseParens.declare name value.eraseParens := by
  obtain ⟨_ | ⟨f, locals⟩, globals⟩ := s <;>
    simp only [declare, eraseParens, List.map_cons, List.map_nil, Frame.eraseParens_insert]

/-- A name is found in the same frame, and stands for the value without parentheses. -/
theorem resolve?_eraseParens (s : Scopes) (name : String) :
    s.eraseParens.resolve? name = (s.resolve? name).map Value.eraseParens := by
  have hframes : s.eraseParens.locals ++ [s.eraseParens.globals] =
      (s.locals ++ [s.globals]).map Frame.eraseParens := by
    rw [List.map_append]
    rfl
  rw [resolve?, resolve?, hframes, List.findSome?_map]
  induction s.locals ++ [s.globals] with
  | nil => rfl
  | cons f frames ih =>
    simp only [List.findSome?_cons, Function.comp_apply, Frame.find?_eraseParens, ih]
    cases f.find? name <;> rfl

/-- The names that are bound in each frame, from the innermost frame outwards. -/
def names (s : Scopes) : List (List String) :=
  (s.locals ++ [s.globals]).map fun f => f.bindings.map Prod.fst

@[simp] theorem names_eraseParens (s : Scopes) : s.eraseParens.names = s.names := by
  simp [names, eraseParens, Frame.eraseParens, Function.comp_def]

end Scopes

namespace Machine

/-- The machine without the parentheses of its values. -/
def eraseParens (m : Machine) : Machine := ⟨m.stack.map Value.eraseParens, m.scopes.eraseParens⟩

/-! ### Work with and without parentheses

`Commutes` is an equation between runs and not an implication: it speaks of failures as well, and of
the machine that they leave behind. -/

/-- The result with a machine without parentheses, and with its value mapped by `f`. -/
def eraseResult {α β : Type} (f : α → β) :
    EStateM.Result Error Machine α → EStateM.Result Error Machine β
  | .ok a m => .ok (f a) m.eraseParens
  | .error e m => .error e m.eraseParens

/-- What `x` does to a machine, `y` does to the machine without parentheses. -/
def Commutes {α β : Type} (f : α → β) (x : Work α) (y : Work β) : Prop :=
  ∀ m : Machine, y m.eraseParens = eraseResult f (x m)

section Commutes

variable {α β γ δ : Type}

theorem commutes_pure (f : α → β) (a : α) : Commutes f (pure a) (pure (f a)) := fun _ => rfl

theorem commutes_throw (f : α → β) (e : Error) : Commutes f (throw e) (throw e) := fun _ => rfl

theorem commutes_fail (f : α → β) (e : RuntimeError) : Commutes f (fail e) (fail e) := fun _ => rfl

/-- Work in sequence commutes if its steps do. -/
theorem Commutes.bind {f : α → β} {g : γ → δ} {x : Work α} {y : Work β} {k : α → Work γ}
    {l : β → Work δ} (h : Commutes f x y) (hkl : ∀ a, Commutes g (k a) (l (f a))) :
    Commutes g (x >>= k) (y >>= l) := by
  intro m
  have hm := h m
  cases hx : x m with
  | ok a m' =>
    rw [hx] at hm
    rw [bind_of_ok hx, bind_of_ok hm]
    exact hkl a m'
  | error e m' =>
    rw [hx] at hm
    rw [bind_of_error hx, bind_of_error hm]
    rfl

theorem commutes_push (value : Value) : Commutes id (push value) (push value.eraseParens) :=
  fun _ => rfl

theorem commutes_pop (operation : Operation) :
    Commutes Value.eraseParens (pop operation) (pop operation) := by
  intro m
  obtain ⟨_ | ⟨value, stack⟩, scopes⟩ := m <;> rfl

theorem commutes_pushResult {r r' : Except RuntimeError Value} (h : r' = r.map Value.eraseParens) :
    Commutes id (pushResult r) (pushResult r') := by
  rw [h]
  cases r with
  | ok value => exact commutes_push value
  | error e => exact commutes_fail id e

theorem commutes_declare (name : String) (value : Value) :
    Commutes id (modify fun m => { m with scopes := m.scopes.declare name value } : Work PUnit)
      (modify fun m => { m with scopes := m.scopes.declare name value.eraseParens }) := by
  intro m
  show EStateM.Result.ok () _ = .ok () _
  rw [eraseParens, eraseParens, Scopes.eraseParens_declare]

/-- The body of a call commutes in a frame without parentheses. -/
theorem Commutes.inFrame {x y : Work Unit} (h : Commutes id x y) (frame : Frame) :
    Commutes id (inFrame frame x) (Machine.inFrame frame.eraseParens y) := by
  intro m
  have hbody := h { m with scopes := m.scopes.push frame }
  have hpush : eraseParens { m with scopes := m.scopes.push frame } =
      { m.eraseParens with scopes := m.eraseParens.scopes.push frame.eraseParens } := rfl
  rw [hpush] at hbody
  rw [Machine.inFrame, Machine.inFrame, hbody]
  cases x { m with scopes := m.scopes.push frame } with
  | ok _ m' => simp only [eraseResult, eraseParens, Scopes.eraseParens_pop]
  | error e m' => simp only [eraseResult, eraseParens, Scopes.eraseParens_pop]

end Commutes

/-- Operators look at numbers, and at the texts of functions, which do not show the body. -/
theorem applyBinary_eraseParens (op : BinaryOp) (a b : Value) :
    applyBinary op a.eraseParens b.eraseParens =
      (applyBinary op a b).map Value.eraseParens := by
  cases a <;> cases b <;> rfl

theorem applyUnary_eraseParens (op : UnaryOp) (a : Value) :
    applyUnary op a.eraseParens = (applyUnary op a).map Value.eraseParens := by
  cases a <;> cases op <;> rfl

section Level

variable {visit visit' : Expr → Work Unit}

theorem commutes_visitBlock (h : ∀ e, Commutes id (visit e) (visit' e.eraseParens))
    (es : List Expr) :
    Commutes id (visitBlock visit es) (visitBlock visit' (es.map Expr.eraseParens)) := by
  induction es with
  | nil => exact commutes_pure id ()
  | cons e es ih =>
    cases es with
    | nil => exact h e
    | cons e' es => exact (h e).bind fun _ => (commutes_pop .block).bind fun _ => ih

theorem commutes_bindArgs (h : ∀ e, Commutes id (visit e) (visit' e.eraseParens))
    (params : List String) (args : List Expr) (frame : Frame) :
    Commutes Frame.eraseParens (bindArgs visit (params.zip args) frame)
      (bindArgs visit' (params.zip (args.map Expr.eraseParens)) frame.eraseParens) := by
  induction params generalizing args frame with
  | nil => exact commutes_pure Frame.eraseParens frame
  | cons name params ih =>
    cases args with
    | nil => exact commutes_pure Frame.eraseParens frame
    | cons e args =>
      refine (h e).bind fun _ => (commutes_pop .call).bind fun value => ?_
      rw [← Frame.eraseParens_insert]
      exact ih args (frame.insert name value)

theorem commutes_operands (h : ∀ e, Commutes id (visit e) (visit' e.eraseParens)) (callee : Expr)
    (args : List Expr) :
    Commutes (Prod.map Frame.eraseParens Expr.eraseParens) (operands visit callee args)
      (operands visit' callee.eraseParens (args.map Expr.eraseParens)) := by
  refine (h callee).bind fun _ => (commutes_pop .call).bind fun value => ?_
  cases value with
  | num a => exact commutes_fail _ _
  | func params body =>
    simp only [Value.eraseParens, List.length_map]
    by_cases harity : params.length = args.length
    · simp only [if_pos harity]
      exact (commutes_bindArgs h params args .empty).bind fun frame => commutes_pure _ (frame, body)
    · simp only [if_neg harity]
      exact commutes_fail _ _

/-- One level of an evaluation is the same without parentheses, unless it is that of a pair of
parentheses. -/
theorem commutes_level (h : ∀ e, Commutes id (visit e) (visit' e.eraseParens)) {e : Expr}
    (he : ∀ inner, e ≠ .paren inner) :
    Commutes id (level inFrame visit e) (level inFrame visit' e.eraseParens) := by
  cases e with
  | malformed message => exact commutes_throw id _
  | block statements =>
    rw [Expr.eraseParens, Expr.eraseEach_eq_map]
    exact commutes_visitBlock h statements
  | int value => exact commutes_push _
  | binary op left right =>
    refine (h left).bind fun _ => (h right).bind fun _ => ?_
    refine (commutes_pop .binary).bind fun b => (commutes_pop .binary).bind fun a => ?_
    exact commutes_pushResult (applyBinary_eraseParens op a b)
  | unary op operand =>
    refine (h operand).bind fun _ => (commutes_pop .unary).bind fun a => ?_
    exact commutes_pushResult (applyUnary_eraseParens op a)
  | paren inner => exact absurd rfl (he inner)
  | declare name value =>
    refine (h value).bind fun _ => (commutes_pop .declare).bind fun a => ?_
    exact (commutes_declare name a).bind fun _ => commutes_push a
  | var name =>
    intro m
    have hget : (get : Work Machine) m = .ok m m := rfl
    have hget' : (get : Work Machine) m.eraseParens = .ok m.eraseParens m.eraseParens := rfl
    have hresolve : m.eraseParens.scopes.resolve? name =
        (m.scopes.resolve? name).map Value.eraseParens := m.scopes.resolve?_eraseParens name
    rw [Expr.eraseParens, level, level, bind_of_ok hget, bind_of_ok hget', hresolve]
    cases m.scopes.resolve? name with
    | none => exact commutes_fail id _ m
    | some value => exact commutes_push value m
  | func params body => exact commutes_push (.func params body)
  | call callee args =>
    rw [Expr.eraseParens, Expr.eraseEach_eq_map]
    exact (commutes_operands h callee args).bind fun entry => (h entry.2).inFrame entry.1

end Level

/-! ### The machine to which parentheses are free

An induction on the limit cannot compare a tree with the tree without parentheses directly, because
the two need different limits at every pair. With the second machine in between, each comparison
has one reason: first the limits change and the tree does not, then the tree and not the limits. -/

/-- Evaluates as `visit` does, but looks through the parentheses around an expression first, so that
they take no level. -/
def visitCore : ℕ → Expr → Work Unit
  | 0, _ => throw .tooDeep
  | depth + 1, e => level inFrame (visitCore depth) e.core

/-- What the machine reaches is reached if parentheses are free. -/
theorem approximates_visitCore (depth : ℕ) (e : Expr) :
    Approximates (visit depth e) fun n => visitCore n e := by
  induction depth generalizing e with
  | zero => exact fun m h => absurd rfl (h m)
  | succ depth ih =>
    cases e with
    | paren inner =>
      have hfree : ∀ n, visitCore n (.paren inner) = visitCore n inner := fun n => by
        cases n <;> rfl
      simp only [hfree]
      exact ih inner
    | _ =>
      rw [visit_succ]
      exact .of_succ (approximates_level ih _)

/-- The parentheses around an expression only take some levels. -/
theorem approximates_of_core {x : Work Unit} :
    ∀ e : Expr, (Approximates x fun n => visit n e.core) → Approximates x fun n => visit n e
  | .paren inner, h => .of_succ (approximates_of_core inner h)
  | .malformed _, h | .block _, h | .int _, h | .binary _ _ _, h | .unary _ _, h | .declare _ _, h
  | .var _, h | .func _ _, h | .call _ _, h => h

/-- What is reached if parentheses are free, the machine reaches. -/
theorem approximates_visit (depth : ℕ) (e : Expr) :
    Approximates (visitCore depth e) fun n => visit n e := by
  induction depth generalizing e with
  | zero => exact fun m h => absurd rfl (h m)
  | succ depth ih =>
    have hlevel := approximates_level ih e.core
    simp only [← visit_succ] at hlevel
    exact approximates_of_core e (.of_succ hlevel)

/-- **Parentheses that are free make no difference**, within every limit. -/
theorem commutes_visitCore (depth : ℕ) (e : Expr) :
    Commutes id (visitCore depth e) (visitCore depth e.eraseParens) := by
  induction depth generalizing e with
  | zero => exact commutes_throw id _
  | succ depth ih =>
    rw [visitCore, visitCore, e.core_eraseParens, ← e.eraseParens_core]
    exact commutes_level ih fun inner => Expr.core_ne_paren inner e

/-! ### Evaluations with and without parentheses

A result that was not cut off by the limit is the same for both machines. -/

/-- Evaluates an expression to which parentheses are free, and takes its value from the stack. -/
def evalCore (depth : ℕ) (e : Expr) : Work Value := do
  visitCore depth e
  pop .result

theorem commutes_evalCore (depth : ℕ) (e : Expr) :
    Commutes Value.eraseParens (evalCore depth e) (evalCore depth e.eraseParens) :=
  (commutes_visitCore depth e).bind fun _ => commutes_pop .result

theorem returns_eraseResult {r : EStateM.Result Error Machine Value} :
    Returns (eraseResult Value.eraseParens r) ↔ Returns r := by
  cases r with
  | ok value m => exact ⟨fun _ _ => nofun, fun _ _ => nofun⟩
  | error e m =>
    refine ⟨fun h m' hm => ?_, fun h m' hm => ?_⟩
    · cases hm
      exact h _ rfl
    · cases hm
      exact h _ rfl

/-- A result is a result also if parentheses are free. -/
theorem evaluates_iff_evalCore {m : Machine} {e : Expr} {r : EStateM.Result Error Machine Value} :
    Evaluates m e r ↔ Returns r ∧ ∃ depth, evalCore depth e m = r := by
  constructor
  · rintro ⟨hr, depth, rfl⟩
    have happrox := (approximates_visitCore depth e).bind fun _ => approximates_const (pop .result)
    obtain ⟨n, hn⟩ := happrox m hr
    exact ⟨hr, n, hn n (Nat.le_refl n)⟩
  · rintro ⟨hr, depth, rfl⟩
    have happrox := (approximates_visit depth e).bind fun _ => approximates_const (pop .result)
    exact evaluates_of_settles hr (happrox m hr)

/-- **Evaluation without parentheses.** The results on the machine without parentheses are those on
the machine, without parentheses. -/
theorem evaluates_eraseParens {m : Machine} {e : Expr} {r' : EStateM.Result Error Machine Value} :
    Evaluates m.eraseParens e.eraseParens r' ↔
      ∃ r, Evaluates m e r ∧ r' = eraseResult Value.eraseParens r := by
  simp only [evaluates_iff_evalCore]
  constructor
  · rintro ⟨hr', depth, rfl⟩
    rw [commutes_evalCore depth e m] at hr' ⊢
    exact ⟨_, ⟨returns_eraseResult.mp hr', depth, rfl⟩, rfl⟩
  · rintro ⟨_, ⟨hr, depth, rfl⟩, rfl⟩
    exact ⟨returns_eraseResult.mpr hr, depth, commutes_evalCore depth e m⟩

/-- What is seen from outside: the text of the value or the error, and the names that are bound in
each frame afterwards. -/
def view (r : EStateM.Result Error Machine Value) : Except Error String × List (List String) :=
  match r with
  | .ok value m => (.ok value.text, m.scopes.names)
  | .error error m => (.error error, m.scopes.names)

/-- What is seen of a result does not show parentheses. -/
theorem view_eraseResult (r : EStateM.Result Error Machine Value) :
    view (eraseResult Value.eraseParens r) = view r := by
  cases r with
  | ok value m =>
    exact Prod.ext (congrArg Except.ok value.text_eraseParens) m.scopes.names_eraseParens
  | error e m => exact Prod.ext rfl m.scopes.names_eraseParens

end Machine

/-- **Parentheses mean nothing.** On a fresh machine, the evaluation of a tree comes to an end if
and only if that of the tree without parentheses does. Both then show the same text or the same
error, and leave the same names in the same frames. -/
theorem Expr.evaluates_eraseParens_iff (t : Expr)
    (shown : Except Error String × List (List String)) :
    (∃ r, Machine.Evaluates .start t.eraseParens r ∧ Machine.view r = shown) ↔
      ∃ r, Machine.Evaluates .start t r ∧ Machine.view r = shown := by
  -- there are no values on a fresh machine, so there is nothing to erase
  have hresults : ∀ r', Machine.Evaluates .start t.eraseParens r' ↔
      ∃ r, Machine.Evaluates .start t r ∧ r' = Machine.eraseResult Value.eraseParens r :=
    fun r' => Machine.evaluates_eraseParens (m := .start)
  constructor
  · rintro ⟨r', hr', rfl⟩
    obtain ⟨r, hr, rfl⟩ := (hresults r').mp hr'
    exact ⟨r, hr, (Machine.view_eraseResult r).symm⟩
  · rintro ⟨r, hr, rfl⟩
    exact ⟨_, (hresults _).mpr ⟨r, hr, rfl⟩, Machine.view_eraseResult r⟩

end ArrowCalc
