import ArrowCalc.Proofs.Refinement

/-!
# What evaluation does to the frames

Evaluation changes the innermost frame only, and there only the names that the expression itself
declares. The declarations in a function literal do not count: they are made in the frame of a call,
which is gone when the call is over. An error leaves a call in the same way as a value does, so all
of this holds of failed runs too.

The invariant is `Scopes.Changes`. It is kept by work in sequence, and where a body keeps it, the
scopes of the caller are back when the frame of the body is removed (`Touches.after_inFrame`).

That the frame removed is never the global one is said with a machine that raises an alarm in this
case (`Machine.inGuardedFrame`). It runs as the machine does, whatever the alarm is.

## Main definitions

* `Expr.Declares` — the names that an expression declares outside of function literals
* `Scopes.Changes`, `Machine.Touches` — what may have changed between two scopes, and in a run
* `Machine.operands` — a call up to the point where the body is entered
* `Machine.visitBy` — the machine, with the way in which bodies are entered left open
* `Machine.session` — programs evaluated one after the other on one machine

## Main results

* `Machine.touches_visit` — an expression touches only the names that it declares
* `Machine.visitBy_inGuardedFrame` — the alarm is never raised
* `Machine.scope_discipline` — what a run, a call and a session do to the frames
-/

namespace ArrowCalc

open Reference

/-! ### Declared names -/

/-- The expression declares the name, outside of the function literals in it. -/
inductive Expr.Declares (x : String) : Expr → Prop where
  | here (value : Expr) : Declares x (.declare x value)
  | value (name : String) {value : Expr} (h : Declares x value) : Declares x (.declare name value)
  | statement {e : Expr} {statements : List Expr} (he : e ∈ statements) (h : Declares x e) :
      Declares x (.block statements)
  | left (op : BinaryOp) {left : Expr} (right : Expr) (h : Declares x left) :
      Declares x (.binary op left right)
  | right (op : BinaryOp) (left : Expr) {right : Expr} (h : Declares x right) :
      Declares x (.binary op left right)
  | operand (op : UnaryOp) {operand : Expr} (h : Declares x operand) :
      Declares x (.unary op operand)
  | inner {inner : Expr} (h : Declares x inner) : Declares x (.paren inner)
  | callee {callee : Expr} (args : List Expr) (h : Declares x callee) :
      Declares x (.call callee args)
  | arg (callee : Expr) {e : Expr} {args : List Expr} (he : e ∈ args) (h : Declares x e) :
      Declares x (.call callee args)

/-! ### Changes of scopes -/

namespace Scopes

/-- The frame in which names are declared. -/
def inner (s : Scopes) : Frame := s.locals.headD s.globals

theorem inner_declare (s : Scopes) (name : String) (value : Value) :
    (s.declare name value).inner = s.inner.insert name value := by
  obtain ⟨_ | ⟨f, locals⟩, globals⟩ := s <;> rfl

/-- The frames around the innermost one determine how many there are. -/
theorem depth_eq_of_outer {s t : Scopes} (h : t.outer = s.outer) : t.depth = s.depth := by
  obtain ⟨_ | ⟨f, locals⟩, globals⟩ := s <;> obtain ⟨_ | ⟨g, locals'⟩, globals'⟩ := t
  · rfl
  · cases h
  · cases h
  · cases h
    rfl

theorem depth_of_outer_push {s t : Scopes} {frame : Frame} (h : t.outer = (s.push frame).outer) :
    t.depth = s.depth + 1 :=
  depth_eq_of_outer h

/-- Only the innermost frame has changed from `s` to `t`, and only in names with `N`. -/
structure Changes (N : String → Prop) (s t : Scopes) : Prop where
  outer : t.outer = s.outer
  inner : ∀ x, ¬ N x → t.inner.find? x = s.inner.find? x

variable {N N' : String → Prop} {s t u : Scopes}

theorem Changes.refl (N : String → Prop) (s : Scopes) : Changes N s s := ⟨rfl, fun _ _ => rfl⟩

theorem Changes.trans (h : Changes N s t) (h' : Changes N t u) : Changes N s u where
  outer := h'.outer.trans h.outer
  inner x hx := (h'.inner x hx).trans (h.inner x hx)

theorem Changes.mono (h : Changes N s t) (hN : ∀ x, N x → N' x) : Changes N' s t where
  outer := h.outer
  inner x hx := h.inner x fun hN' => hx (hN x hN')

theorem changes_declare {name : String} (hname : N name) (s : Scopes) (value : Value) :
    Changes N s (s.declare name value) where
  outer := outer_declare s name value
  inner x hx := by
    have hne : x ≠ name := fun heq => hx (heq ▸ hname)
    rw [inner_declare, Frame.find?_insert_of_ne _ _ hne]

end Scopes

namespace Machine

/-! ### Work that touches few names -/

/-- The machine that a run leaves behind, with or without success. -/
def after {α : Type} : EStateM.Result Error Machine α → Machine
  | .ok _ m => m
  | .error _ m => m

/-- Whatever comes of it, the work changes the innermost frame only, in names with `N`. -/
def Touches {α : Type} (N : String → Prop) (w : Work α) : Prop :=
  ∀ m, Scopes.Changes N m.scopes (after (w m)).scopes

section Touches

variable {α β : Type} {N N' : String → Prop}

theorem Touches.mono {w : Work α} (h : Touches N w) (hN : ∀ x, N x → N' x) : Touches N' w :=
  fun m => (h m).mono hN

/-- Work that leaves the scopes alone. -/
theorem touches_of_scopes {w : Work α} (h : ∀ m, (after (w m)).scopes = m.scopes) :
    Touches N w := by
  intro m
  rw [h m]
  exact .refl N _

theorem Touches.bind {w : Work α} {f : α → Work β} (h : Touches N w) (hf : ∀ a, Touches N (f a)) :
    Touches N (w >>= f) := by
  intro m
  have hm := h m
  cases hw : w m with
  | ok a m' =>
    rw [hw] at hm
    rw [bind_of_ok hw]
    exact hm.trans (hf a m')
  | error e m' =>
    rw [hw] at hm
    rwa [bind_of_error hw]

theorem touches_pure (a : α) : Touches N (pure a : Work α) := touches_of_scopes fun _ => rfl

theorem touches_throw (e : Error) : Touches N (throw e : Work α) := touches_of_scopes fun _ => rfl

theorem touches_fail (e : RuntimeError) : Touches N (fail e : Work α) := touches_throw _

theorem touches_push (value : Value) : Touches N (push value) := touches_of_scopes fun _ => rfl

theorem touches_pop (operation : Operation) : Touches N (pop operation) := by
  refine touches_of_scopes fun m => ?_
  rw [pop]
  split <;> rfl

theorem touches_pushResult (r : Except RuntimeError Value) : Touches N (pushResult r) := by
  cases r with
  | ok value => exact touches_push value
  | error e => exact touches_fail e

/-- Evaluating something and taking its value. -/
theorem Touches.take {w : Work Unit} {f : Value → Work β} (h : Touches N w) (operation : Operation)
    (hf : ∀ value, Touches N (f value)) : Touches N (do w; let value ← pop operation; f value) :=
  h.bind fun _ => (touches_pop operation).bind hf

/-- When the frame of a call is removed, the scopes are those of the caller. -/
theorem Touches.after_inFrame {body : Work Unit} (h : Touches N body) (frame : Frame)
    (m : Machine) : (after (inFrame frame body m)).scopes = m.scopes := by
  have hbody := (h { m with scopes := m.scopes.push frame }).outer
  rw [inFrame]
  generalize body { m with scopes := m.scopes.push frame } = r at hbody
  cases r <;> exact Scopes.pop_of_outer hbody

end Touches

/-! ### One level of an evaluation -/

/-- A call up to the point where its body is entered: the frame and the body of the function. -/
def operands (visit : Expr → Work Unit) (callee : Expr) (args : List Expr) :
    Work (Frame × Expr) := do
  visit callee
  match ← pop .call with
  | .num a => fail (.notAFunction (Value.num a).text)
  | .func params body =>
    if params.length = args.length then
      let frame ← bindArgs visit (params.zip args) .empty
      pure (frame, body)
    else fail (.wrongArity params.length args.length)

/-- One level of an evaluation. What is nested is evaluated by `visit`, and `enter` runs the body of
a function in its frame. -/
def level (enter : Frame → Work Unit → Work Unit) (visit : Expr → Work Unit) : Expr → Work Unit
  | .malformed message => throw (.malformed message)
  | .block statements => visitBlock visit statements
  | .int value => push (.num (Float.ofInt value))
  | .binary op left right => do
    visit left
    visit right
    let b ← pop .binary
    let a ← pop .binary
    pushResult (applyBinary op a b)
  | .unary op operand => do
    visit operand
    let a ← pop .unary
    pushResult (applyUnary op a)
  | .paren inner => visit inner
  | .declare name value => do
    visit value
    let a ← pop .declare
    modify fun m => { m with scopes := m.scopes.declare name a }
    push a
  | .var name => do
    match (← get).scopes.resolve? name with
    | some value => push value
    | none => fail (.unknownVariable name)
  | .func params body => push (.func params body)
  | .call callee args => do
    let entry ← operands visit callee args
    enter entry.1 (visit entry.2)

/-- The machine, with the way in which bodies are entered left open. -/
def visitBy (enter : Frame → Work Unit → Work Unit) : ℕ → Expr → Work Unit
  | 0, _ => throw .tooDeep
  | depth + 1, e => level enter (visitBy enter depth) e

theorem visit_call (depth : ℕ) (callee : Expr) (args : List Expr) :
    visit (depth + 1) (.call callee args) =
      operands (visit depth) callee args >>= fun entry =>
        inFrame entry.1 (visit depth entry.2) := by
  simp only [visit, operands, bind_assoc]
  congr 1
  funext _
  congr 1
  funext value
  cases value with
  | num a => rfl
  | func params body =>
    by_cases harity : params.length = args.length
    · simp only [if_pos harity, bind_assoc, pure_bind]
    · simp only [if_neg harity]
      rfl

theorem visit_succ (depth : ℕ) (e : Expr) :
    visit (depth + 1) e = level inFrame (visit depth) e := by
  cases e with
  | call callee args => exact visit_call depth callee args
  | _ => rfl

/-! ### What an evaluation touches -/

theorem touches_visitBlock {N : String → Prop} {visit : Expr → Work Unit} {es : List Expr}
    (hes : ∀ e ∈ es, Touches N (visit e)) : Touches N (visitBlock visit es) := by
  induction es with
  | nil => exact touches_pure ()
  | cons e es ih =>
    obtain ⟨he, hes⟩ := List.forall_mem_cons.mp hes
    cases es with
    | nil => exact he
    | cons e' es => exact he.take .block fun _ => ih hes

theorem touches_bindArgs {N : String → Prop} {visit : Expr → Work Unit}
    {bindings : List (String × Expr)} (h : ∀ b ∈ bindings, Touches N (visit b.2)) (frame : Frame) :
    Touches N (bindArgs visit bindings frame) := by
  induction bindings generalizing frame with
  | nil => exact touches_pure frame
  | cons b bindings ih =>
    obtain ⟨hb, hbindings⟩ := List.forall_mem_cons.mp h
    exact hb.take .call fun _ => ih hbindings _

theorem touches_operands {N : String → Prop} {visit : Expr → Work Unit} {callee : Expr}
    {args : List Expr} (hcallee : Touches N (visit callee))
    (hargs : ∀ e ∈ args, Touches N (visit e)) : Touches N (operands visit callee args) := by
  refine hcallee.take .call fun value => ?_
  cases value with
  | num a => exact touches_fail _
  | func params body =>
    by_cases harity : params.length = args.length
    · simp only [if_pos harity]
      refine (touches_bindArgs (fun b hb => ?_) _).bind fun _ => touches_pure _
      exact hargs b.2 (List.of_mem_zip hb).2
    · simp only [if_neg harity]
      exact touches_fail _

/-- The body of a call has no part in what the call does to the scopes. -/
theorem after_call {N : Expr → String → Prop} {visit : Expr → Work Unit}
    (hvisit : ∀ e, Touches (N e) (visit e)) (callee : Expr) (args : List Expr) (m : Machine) :
    (after (level inFrame visit (.call callee args) m)).scopes =
      (after (operands visit callee args m)).scopes := by
  rw [level]
  cases hrun : operands visit callee args m with
  | ok p m' =>
    rw [bind_of_ok hrun]
    exact (hvisit p.2).after_inFrame p.1 m'
  | error e m' =>
    rw [bind_of_error hrun]
    rfl

/-- An expression touches only the names that it declares. -/
theorem touches_level {visit : Expr → Work Unit} (hvisit : ∀ e, Touches (e.Declares ·) (visit e))
    (e : Expr) : Touches (e.Declares ·) (level inFrame visit e) := by
  cases e with
  | malformed message => exact touches_throw _
  | block statements =>
    exact touches_visitBlock fun e he => (hvisit e).mono fun _ h => .statement he h
  | int value => exact touches_push _
  | binary op left right =>
    refine ((hvisit left).mono fun _ h => .left op right h).bind fun _ => ?_
    refine ((hvisit right).mono fun _ h => .right op left h).take .binary fun _ => ?_
    exact (touches_pop .binary).bind fun _ => touches_pushResult _
  | unary op operand =>
    exact ((hvisit operand).mono fun _ h => .operand op h).take .unary fun _ =>
      touches_pushResult _
  | paren inner => exact (hvisit inner).mono fun _ h => .inner h
  | declare name value =>
    refine ((hvisit value).mono fun _ h => .value name h).take .declare fun a => ?_
    exact Touches.bind (fun m => Scopes.changes_declare (.here value) m.scopes a)
      fun _ => touches_push a
  | var name =>
    refine touches_of_scopes fun m => ?_
    have hget : (get : Work Machine) m = .ok m m := rfl
    rw [level, bind_of_ok hget]
    cases m.scopes.resolve? name <;> rfl
  | func params body => exact touches_push _
  | call callee args =>
    -- the body declares in a frame of its own, so the callee and the arguments are all that counts
    intro m
    rw [after_call hvisit]
    refine touches_operands ((hvisit callee).mono fun _ h => .callee args h) ?_ m
    exact fun e he => (hvisit e).mono fun _ h => .arg callee he h

/-- **What a run touches**, with or without success and within every limit. -/
theorem touches_visit (depth : ℕ) (e : Expr) : Touches (e.Declares ·) (visit depth e) := by
  induction depth generalizing e with
  | zero => exact touches_throw _
  | succ depth ih =>
    rw [visit_succ]
    exact touches_level ih e

/-! ### The frame that is removed -/

/-- Works in a frame as `inFrame` does, but raises an alarm instead of removing the global frame. -/
def inGuardedFrame (alarm : Error) (frame : Frame) (body : Work Unit) : Work Unit := fun m =>
  match body { m with scopes := m.scopes.push frame } with
  | .ok _ m' =>
    if m'.scopes.depth = 1 then .error alarm m' else .ok () { m' with scopes := m'.scopes.pop }
  | .error e m' =>
    if m'.scopes.depth = 1 then .error alarm m' else .error e { m' with scopes := m'.scopes.pop }

/-- A body that touches its own frame only has one to remove. -/
theorem Touches.inGuardedFrame {N : String → Prop} {body : Work Unit} (h : Touches N body)
    (alarm : Error) (frame : Frame) : inGuardedFrame alarm frame body = inFrame frame body := by
  funext m
  have hdepth := Scopes.depth_of_outer_push (h { m with scopes := m.scopes.push frame }).outer
  rw [Machine.inGuardedFrame, inFrame]
  generalize body { m with scopes := m.scopes.push frame } = r at hdepth
  have hne : (after r).scopes.depth ≠ 1 := by
    rw [hdepth]
    exact Nat.succ_ne_succ_iff.mpr (Nat.succ_ne_zero _)
  cases r <;> exact if_neg hne

/-- The alarm is never raised. -/
theorem visitBy_inGuardedFrame (alarm : Error) (depth : ℕ) :
    visitBy (inGuardedFrame alarm) depth = visit depth := by
  induction depth with
  | zero => rfl
  | succ depth ih =>
    funext e
    rw [visitBy, ih, visit_succ]
    cases e with
    | call callee args =>
      rw [level, level]
      congr 1
      funext p
      exact (touches_visit depth p.2).inGuardedFrame alarm p.1
    | _ => rfl

/-! ### Sessions -/

/-- The machine after a session: programs, each with a limit of its own, are evaluated one after the
other, whatever becomes of them. -/
def session (m : Machine) (programs : List (ℕ × Expr)) : Machine :=
  programs.foldl (fun m p => after (eval p.1 p.2 m)) m

theorem touches_eval (depth : ℕ) (e : Expr) : Touches (e.Declares ·) (eval depth e) :=
  (touches_visit depth e).bind fun _ => touches_pop .result

theorem outer_session (m : Machine) (programs : List (ℕ × Expr)) :
    (session m programs).scopes.outer = m.scopes.outer := by
  induction programs generalizing m with
  | nil => rfl
  | cons p programs ih => exact (ih _).trans (touches_eval p.1 p.2 m).outer

/-- **Scope discipline.** A run, with or without success, keeps the number of frames, all frames but
the innermost, and in that one all names that the expression does not declare itself. In a session
on a fresh machine only the global frame is left after each program. A call changes the scopes by
evaluating the callee and the arguments, and in no other way. And no run removes the global frame,
since a machine that raises an alarm there runs alike. -/
theorem scope_discipline :
    (∀ depth e m, (after (visit depth e m)).scopes.depth = m.scopes.depth ∧
      (after (visit depth e m)).scopes.outer = m.scopes.outer ∧
      ∀ x, ¬ e.Declares x →
        (after (visit depth e m)).scopes.inner.find? x = m.scopes.inner.find? x) ∧
      (∀ programs, (session .start programs).scopes.depth = 1) ∧
      (∀ depth callee args,
        (visit (depth + 1) (.call callee args) =
          operands (visit depth) callee args >>= fun entry =>
            inFrame entry.1 (visit depth entry.2)) ∧
        ∀ m, (after (visit (depth + 1) (.call callee args) m)).scopes =
          (after (operands (visit depth) callee args m)).scopes) ∧
      ∀ alarm depth e, visitBy (inGuardedFrame alarm) depth e = visit depth e := by
  refine ⟨fun depth e m => ?_, fun programs => ?_, fun depth callee args => ?_, ?_⟩
  · have hrun := touches_visit depth e m
    exact ⟨Scopes.depth_eq_of_outer hrun.outer, hrun.outer, hrun.inner⟩
  · exact Scopes.depth_eq_of_outer (outer_session .start programs)
  · refine ⟨visit_call depth callee args, fun m => ?_⟩
    rw [visit_succ, after_call (touches_visit depth)]
  · intro alarm depth e
    rw [visitBy_inGuardedFrame]

/-- The call `f(let t = 1)` fails in the body of `f`, behind a declaration of `y` there. The caller
has a `y` of its own, which is still the same. -/
theorem scope_discipline_call :
    let body : Expr := .block [.declare "y" (.var "x"), .var "z"]
    let e : Expr := .call (.var "f") [.declare "t" (.int 1)]
    let m : Machine := ⟨[], ⟨[Frame.empty.insert "y" (.func [] (.int 2))],
      Frame.empty.insert "f" (.func ["x"] body)⟩⟩
    ¬ e.Declares "y" ∧
      visit 4 e m = .error (.runtime (.unknownVariable "z"))
        ⟨[], m.scopes.declare "t" (.num (Float.ofInt 1))⟩ ∧
      (after (visit 4 e m)).scopes.depth = 2 ∧
      (after (visit 4 e m)).scopes.outer = m.scopes.outer ∧
      (after (visit 4 e m)).scopes.inner.find? "y" = m.scopes.inner.find? "y" := by
  intro body e m
  have he : ¬ Expr.Declares "y" (.call (.var "f") [.declare "t" (.int 1)]) := by
    intro h
    cases h with
    | callee _ h => cases h
    | arg _ he h =>
      generalize harg : Expr.declare "t" (.int 1) = arg at he
      rw [List.mem_singleton.mp he] at h
      cases h with
      | here value =>
        injection harg with hname
        exact absurd hname (by decide)
      | value _ h =>
        injection harg with _ hvalue
        rw [← hvalue] at h
        cases h
      | _ => cases harg
  obtain ⟨hdepth, houter, hinner⟩ := scope_discipline.1 4 e m
  exact ⟨he, rfl, hdepth, houter, hinner "y" he⟩

end Machine

end ArrowCalc
