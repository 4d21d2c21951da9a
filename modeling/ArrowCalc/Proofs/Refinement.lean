import ArrowCalc.Proofs.Reference

/-!
# The machine refines the reference interpreter

Started where the environment says what the scopes resolve, the machine and the reference
interpreter go the same way. When the machine returns, it has pushed the value of the interpreter on
top of an otherwise unchanged stack, or failed with its error, with the old stack at the bottom of
what is left. The scopes then resolve what the final environment says.

The interpreter takes back a whole environment at the end of a call, where the machine removes one
frame. The two agree because evaluation touches the innermost frame only, so that the frames under
that of the call are still those of the caller (`Follows`).

A block without statements pushes nothing, and whoever waits for its value takes another. So blocks
are supposed to have statements, in the expression and in every function that it can reach
(`Expr.NoEmptyBlock`).

## Main definitions

* `Expr.NoEmptyBlock`, `Value.NoEmptyBlock`, `Reference.Env.NoEmptyBlock`
* `Refinement.Agrees` — the invariant of a run of both
* `Refinement.Simulates` — the machine does to its stack what the interpreter says

## Main results

* `Refinement.simulates_visit` — both go the same way within every limit
* `Machine.visit_refines` — a run that returns has the result of the interpreter
-/

namespace ArrowCalc

open Reference Machine

/-! ### Blocks with statements -/

/-- Every block in the expression has a statement. -/
inductive Expr.NoEmptyBlock : Expr → Prop where
  | malformed (message : String) : NoEmptyBlock (.malformed message)
  | block {statements : List Expr} (hne : statements ≠ [])
      (h : ∀ e ∈ statements, NoEmptyBlock e) : NoEmptyBlock (.block statements)
  | int (value : Int) : NoEmptyBlock (.int value)
  | binary (op : BinaryOp) {left right : Expr} (hleft : NoEmptyBlock left)
      (hright : NoEmptyBlock right) : NoEmptyBlock (.binary op left right)
  | unary (op : UnaryOp) {operand : Expr} (h : NoEmptyBlock operand) :
      NoEmptyBlock (.unary op operand)
  | paren {inner : Expr} (h : NoEmptyBlock inner) : NoEmptyBlock (.paren inner)
  | declare (name : String) {value : Expr} (h : NoEmptyBlock value) :
      NoEmptyBlock (.declare name value)
  | var (name : String) : NoEmptyBlock (.var name)
  | func (params : List String) {body : Expr} (h : NoEmptyBlock body) :
      NoEmptyBlock (.func params body)
  | call {callee : Expr} {args : List Expr} (hcallee : NoEmptyBlock callee)
      (hargs : ∀ e ∈ args, NoEmptyBlock e) : NoEmptyBlock (.call callee args)

/-- Every block in the body has a statement, if the value is a function. -/
def Value.NoEmptyBlock : Value → Prop
  | .num _ => True
  | .func _ body => body.NoEmptyBlock

/-- Every block in the functions that have a name has a statement. -/
def Reference.Env.NoEmptyBlock (env : Env) : Prop :=
  ∀ name value, env name = some value → value.NoEmptyBlock

theorem Reference.Env.NoEmptyBlock.update {env : Env} (h : env.NoEmptyBlock) (name : String)
    {value : Value} (hvalue : value.NoEmptyBlock) :
    Env.NoEmptyBlock (Function.update env name (some value)) := by
  intro other v hv
  by_cases hname : other = name
  · subst hname
    rw [Function.update_self] at hv
    cases hv
    exact hvalue
  · rw [Function.update_of_ne hname] at hv
    exact h other v hv

theorem Reference.Env.NoEmptyBlock.bind {env : Env} (h : env.NoEmptyBlock)
    {bindings : List (String × Value)} (hbindings : ∀ b ∈ bindings, b.2.NoEmptyBlock) :
    (env.bind bindings).NoEmptyBlock := by
  induction bindings generalizing env with
  | nil => exact h
  | cons b bindings ih =>
    obtain ⟨hb, hbindings⟩ := List.forall_mem_cons.mp hbindings
    exact ih (h.update b.1 hb) hbindings

/-! ### Frames as environments

A frame changes an environment at the names that it binds. Pushing a frame and declaring a name are
both described in this way. -/

/-- A frame on top of an environment. -/
def Frame.onto (frame : Frame) (env : Env) : Env := fun name => (frame.find? name).or (env name)

theorem Frame.onto_insert (frame : Frame) (name : String) (value : Value) (env : Env) :
    (frame.insert name value).onto env = Function.update (frame.onto env) name (some value) := by
  funext other
  by_cases hname : other = name
  · subst hname
    rw [onto, find?_insert_self, Function.update_self]
    rfl
  · rw [onto, find?_insert_of_ne frame value hname, Function.update_of_ne hname, onto]

namespace Scopes

/-- The frames around the innermost one. The global frame has none around it. -/
def outer (s : Scopes) : Option Scopes :=
  match s.locals with
  | [] => none
  | _ :: locals => some ⟨locals, s.globals⟩

theorem resolve?_push_eq_onto (s : Scopes) (frame : Frame) :
    (s.push frame).resolve? = frame.onto s.resolve? :=
  funext (s.resolve?_push frame)

/-- Of a declaration, only the name can be seen. -/
theorem resolve?_declare (s : Scopes) (name : String) (value : Value) :
    (s.declare name value).resolve? = Function.update s.resolve? name (some value) := by
  funext other
  by_cases hname : other = name
  · subst hname
    rw [resolve?_declare_self, Function.update_self]
  · rw [resolve?_declare_of_ne s value hname, Function.update_of_ne hname]

/-- A declaration is made in the innermost frame, so it leaves the others alone. -/
theorem outer_declare (s : Scopes) (name : String) (value : Value) :
    (s.declare name value).outer = s.outer := by
  obtain ⟨_ | ⟨f, locals⟩, globals⟩ := s <;> rfl

/-- Removing a frame that stands on `s` leaves `s`. -/
theorem pop_of_outer {s t : Scopes} (h : t.outer = some s) : t.pop = s := by
  obtain ⟨_ | ⟨f, locals⟩, globals⟩ := t
  · cases h
  · injection h

end Scopes

namespace Refinement

/-! ### The invariant

The environment of the interpreter is a function from names to values, and the scopes of the machine
are a list of frames. They are compared only through `Scopes.resolve?`: how the names are spread
over the frames is no concern of the interpreter. What the machine needs in addition is that the
outer frames stay as they are, since it goes back to them at the end of a call. -/

/-- Scopes `s'` that came from `s` resolve what `env` says. Only the innermost frame has changed. -/
structure Follows (s s' : Scopes) (env : Env) : Prop where
  resolves : s'.resolve? = env
  outer : s'.outer = s.outer
  noEmptyBlock : env.NoEmptyBlock

/-- A run of the machine from `m` and a run of the interpreter have come to the same end. After a
success, `Q` holds of what both returned and of the stack. -/
inductive Agrees {α β : Type} (m : Machine) (Q : α → List Value → β → Prop) :
    EStateM.Result Error Machine α → EStateM.Result Error Env β → Prop where
  | ok {a : α} {b : β} {m' : Machine} {env : Env} (hQ : Q a m'.stack b)
      (h : Follows m.scopes m'.scopes env) : Agrees m Q (.ok a m') (.ok b env)
  | error {e : Error} {m' : Machine} {env : Env} (hstack : m.stack <:+ m'.stack)
      (h : Follows m.scopes m'.scopes env) (he : ∀ op, e ≠ .runtime (.stackUnderflow op)) :
      Agrees m Q (.error e m') (.error e env)

/-- One value was put on the stack. -/
def Pushed (stack : List Value) (_ : Unit) (stack' : List Value) (value : Value) : Prop :=
  stack' = value :: stack ∧ value.NoEmptyBlock

/-- The machine pushes what the interpreter returns. -/
def Simulates (w : Work Unit) (t : Run Value) : Prop :=
  ∀ m : Machine, Env.NoEmptyBlock m.scopes.resolve? →
    Agrees m (Pushed m.stack) (w m) (t m.scopes.resolve?)

theorem suffix_of_eq {stack stack' : List Value} (h : stack' = stack) : stack <:+ stack' :=
  ⟨[], h.symm⟩

theorem Follows.start {s : Scopes} (h : Env.NoEmptyBlock s.resolve?) : Follows s s s.resolve? :=
  ⟨rfl, rfl, h⟩

/-- A run that goes on where another one stopped has the same origin. -/
theorem Agrees.after {α β : Type} {m m' : Machine} {Q : α → List Value → β → Prop} {env : Env}
    {r : EStateM.Result Error Machine α} {r' : EStateM.Result Error Env β} (h : Agrees m' Q r r')
    (hm : Follows m.scopes m'.scopes env) (hstack : m.stack <:+ m'.stack) : Agrees m Q r r' := by
  cases h with
  | ok hQ h => exact .ok hQ ⟨h.resolves, h.outer.trans hm.outer, h.noEmptyBlock⟩
  | error hstack' h he =>
    exact .error (hstack.trans hstack') ⟨h.resolves, h.outer.trans hm.outer, h.noEmptyBlock⟩ he

/-! ### Steps in sequence

All runs are compared with the machine `m` at which the expression as a whole was begun, while `m'`
is where the step at hand begins. So the invariant of a step is also that of the whole, and a
failure in the middle needs no further argument. -/

section Sequence

variable {α β γ δ : Type} {m m' : Machine} {env : Env}

/-- Two runs that agree still agree after continuations that do, wherever these take over. -/
theorem Agrees.bind {P : α → List Value → β → Prop} {Q : γ → List Value → δ → Prop}
    {w : Work α} {t : Run β} {f : α → Work γ} {g : β → Run δ} (h : Agrees m P (w m') (t env))
    (hnext : ∀ {a b m'' env'}, P a m''.stack b → Follows m.scopes m''.scopes env' →
      Agrees m Q (f a m'') (g b env')) :
    Agrees m Q ((w >>= f) m') ((t >>= g) env) := by
  generalize hw : w m' = r at h
  generalize ht : t env = r' at h
  cases h with
  | ok hP h =>
    rw [bind_of_ok hw, bind_of_ok ht]
    exact hnext hP h
  | error hstack h he =>
    rw [bind_of_error hw, bind_of_error ht]
    exact .error hstack h he

/-- The interpreter may do something to its value that the machine does not do. -/
theorem Agrees.map {P : α → List Value → β → Prop} {Q : α → List Value → δ → Prop}
    {r : EStateM.Result Error Machine α} {t : Run β} {g : β → δ} (h : Agrees m P r (t env))
    (hPQ : ∀ {a stack b}, P a stack b → Q a stack (g b)) :
    Agrees m Q r ((t >>= fun b => pure (g b)) env) := by
  generalize ht : t env = r' at h
  cases h with
  | ok hP h =>
    rw [bind_of_ok ht]
    exact .ok (hPQ hP) h
  | error hstack h he =>
    rw [bind_of_error ht]
    exact .error hstack h he

/-- A simulation started in the middle of another run, on a stack that may have grown since. -/
theorem Simulates.run {w : Work Unit} {t : Run Value} (hw : Simulates w t)
    (h : Follows m.scopes m'.scopes env) (hstack : m.stack <:+ m'.stack) :
    Agrees m (Pushed m'.stack) (w m') (t env) := by
  have hrun := hw m' (by rw [h.resolves]; exact h.noEmptyBlock)
  rw [h.resolves] at hrun
  exact hrun.after h hstack

theorem pop_bind {f : Value → Work α} {value : Value} {stack : List Value}
    (h : m.stack = value :: stack) (operation : Operation) :
    (pop operation >>= f) m = f value { m with stack } := by
  have hpop : pop operation m = .ok value { m with stack } := by
    rw [pop, h]
  rw [bind_of_ok hpop]

/-- Evaluating an expression and taking its value leaves the stack as it was. -/
theorem Simulates.take {Q : γ → List Value → δ → Prop} {w : Work Unit} {t : Run Value}
    {f : Value → Work γ} {g : Value → Run δ} (hw : Simulates w t) (operation : Operation)
    (h : Follows m.scopes m'.scopes env) (hstack : m.stack <:+ m'.stack)
    (hnext : ∀ {value m'' env'}, m''.stack = m'.stack → value.NoEmptyBlock →
      Follows m.scopes m''.scopes env' → Agrees m Q (f value m'') (g value env')) :
    Agrees m Q ((w >>= fun _ => pop operation >>= f) m') ((t >>= g) env) := by
  refine (hw.run h hstack).bind fun hpushed h' => ?_
  rw [pop_bind hpushed.1]
  exact hnext rfl hpushed.2 h'

end Sequence

/-! ### Results of operations

An operator gives a number or an error of its own. In particular it never reports that the stack was
empty, which is what the invariant asks of an error. -/

/-- The outcome of an operator keeps to the invariant. -/
def Clean : Except RuntimeError Value → Prop
  | .ok value => value.NoEmptyBlock
  | .error e => ∀ op, e ≠ .stackUnderflow op

theorem clean_applyBinary (op : BinaryOp) (a b : Value) : Clean (applyBinary op a b) := by
  cases a <;> cases b <;> first | exact trivial | exact nofun

theorem clean_applyUnary (op : UnaryOp) (a : Value) : Clean (applyUnary op a) := by
  cases op <;> cases a <;> first | exact trivial | exact nofun

theorem agrees_push {m m' : Machine} {env : Env} {value : Value} (hvalue : value.NoEmptyBlock)
    (hstack : m'.stack = m.stack) (h : Follows m.scopes m'.scopes env) :
    Agrees m (Pushed m.stack) (push value m') (.ok value env) :=
  .ok ⟨congrArg (value :: ·) hstack, hvalue⟩ h

theorem agrees_fail {α β : Type} {m m' : Machine} {env : Env} {Q : α → List Value → β → Prop}
    {e : RuntimeError} (he : ∀ op, e ≠ .stackUnderflow op) (hstack : m'.stack = m.stack)
    (h : Follows m.scopes m'.scopes env) :
    Agrees m Q (Machine.fail e m') (.error (.runtime e) env) := by
  exact .error (suffix_of_eq hstack) h fun op hop => he op (Error.runtime.inj hop)

/-- The outcome of an operator is pushed, or raised. -/
theorem agrees_result {m m' : Machine} {env : Env} {r : Except RuntimeError Value} (hr : Clean r)
    (hstack : m'.stack = m.stack) (h : Follows m.scopes m'.scopes env) :
    Agrees m (Pushed m.stack) (pushResult r m') (ofResult r env) := by
  cases r with
  | ok value => exact agrees_push hr hstack h
  | error e => exact agrees_fail hr hstack h

/-! ### Expressions

There is one lemma for each kind of expression. It takes the runs of the parts as they are, with
nothing said about how deep they may go, and so it serves for every limit. -/

theorem simulates_malformed (message : String) :
    Simulates (throw (.malformed message)) (throw (.malformed message)) :=
  fun _ hm => .error (List.suffix_refl _) (.start hm) nofun

theorem simulates_push {value : Value} (hvalue : value.NoEmptyBlock) :
    Simulates (push value) (pure value) :=
  fun _ hm => agrees_push hvalue rfl (.start hm)

/-- The value of each statement but the last is dropped by both. -/
theorem simulates_block {visit : Expr → Work Unit} {eval : Expr → Run Value} {es : List Expr}
    (hne : es ≠ []) (hes : ∀ e ∈ es, Simulates (visit e) (eval e)) :
    Simulates (visitBlock visit es) (evalBlock eval es) := by
  induction es with
  | nil => exact absurd rfl hne
  | cons e es ih =>
    obtain ⟨he, hes⟩ := List.forall_mem_cons.mp hes
    cases es with
    | nil => exact he
    | cons e' es =>
      intro m hm
      refine he.take .block (.start hm) (List.suffix_refl _) fun hstack _ h => ?_
      rw [← hstack]
      exact (ih (List.cons_ne_nil _ _) hes).run h (suffix_of_eq hstack)

/-- Both operands are evaluated before either value is taken from the stack. -/
theorem simulates_binary (op : BinaryOp) {left right : Work Unit} {left' right' : Run Value}
    (hleft : Simulates left left') (hright : Simulates right right') :
    Simulates
      (do
        left
        right
        let b ← pop .binary
        let a ← pop .binary
        pushResult (applyBinary op a b))
      (do
        let a ← left'
        let b ← right'
        ofResult (applyBinary op a b)) := by
  intro m hm
  refine (hleft.run (.start hm) (List.suffix_refl _)).bind fun ha h => ?_
  obtain ⟨ha, -⟩ := ha
  -- the left value waits on the stack while the right operand runs
  refine hright.take .binary h ?_ fun {b m₂ _} hstack _ h₂ => ?_
  · rw [ha]
    exact List.suffix_cons _ _
  · rw [ha] at hstack
    rw [pop_bind hstack]
    exact agrees_result (clean_applyBinary op _ b) rfl h₂

theorem simulates_unary (op : UnaryOp) {operand : Work Unit} {operand' : Run Value}
    (h : Simulates operand operand') :
    Simulates
      (do
        operand
        let a ← pop .unary
        pushResult (applyUnary op a))
      (do
        let a ← operand'
        ofResult (applyUnary op a)) := by
  intro m hm
  refine h.take .unary (.start hm) (List.suffix_refl _) fun hstack _ h => ?_
  exact agrees_result (clean_applyUnary op _) hstack h

/-- A declaration changes the innermost frame, and what `name` stands for in the environment. -/
theorem simulates_declare (name : String) {value : Work Unit} {value' : Run Value}
    (h : Simulates value value') :
    Simulates
      (do
        value
        let a ← pop .declare
        modify fun m => { m with scopes := m.scopes.declare name a }
        push a)
      (do
        let a ← value'
        modify fun env => Function.update env name (some a)
        pure a) := by
  intro m hm
  refine h.take .declare (.start hm) (List.suffix_refl _) fun {a m' env} hstack ha h => ?_
  have hscopes : Follows m.scopes (m'.scopes.declare name a)
      (Function.update env name (some a)) := by
    refine ⟨?_, ?_, h.noEmptyBlock.update name ha⟩
    · rw [Scopes.resolve?_declare, h.resolves]
    · rw [Scopes.outer_declare, h.outer]
  show Agrees m (Pushed m.stack) (push a { m' with scopes := m'.scopes.declare name a })
    (.ok a (Function.update env name (some a)))
  exact agrees_push ha hstack hscopes

theorem simulates_var (name : String) :
    Simulates
      (do
        match (← get).scopes.resolve? name with
        | some value => push value
        | none => Machine.fail (.unknownVariable name))
      (do
        match (← get) name with
        | some value => pure value
        | none => throw (.runtime (.unknownVariable name))) := by
  intro m hm
  have hstart := Follows.start hm
  have hget : (get : Work Machine) m = .ok m m := rfl
  have hget' : (get : Run Env) m.scopes.resolve? = .ok m.scopes.resolve? m.scopes.resolve? := rfl
  rw [bind_of_ok hget, bind_of_ok hget']
  cases hname : m.scopes.resolve? name with
  | none => exact agrees_fail nofun rfl hstart
  | some value => exact agrees_push (hm name value hname) rfl hstart

/-! ### Calls

The machine binds each argument in the new frame as soon as it has its value, and the interpreter
binds all of them in the end. No argument can see the difference: the new frame is not among the
scopes before the body runs. -/

/-- The arguments are on the frame in the end, and the stack is as it was. -/
theorem agrees_args {visit : Expr → Work Unit} {eval : Expr → Run Value} {params : List String}
    {args : List Expr} (hargs : ∀ e ∈ args, Simulates (visit e) (eval e))
    (harity : params.length = args.length) {m m' : Machine} {env : Env} (frame : Frame)
    (h : Follows m.scopes m'.scopes env) (hstack : m'.stack = m.stack) :
    Agrees m
      (fun frame' stack values => stack = m.stack ∧ (∀ v ∈ values, v.NoEmptyBlock) ∧
        ∀ env, frame'.onto env = (frame.onto env).bind (params.zip values))
      (bindArgs visit (params.zip args) frame m') (evalArgs eval args env) := by
  induction args generalizing params frame m' env with
  | nil =>
    obtain rfl := List.length_eq_zero_iff.mp harity
    exact .ok ⟨hstack, List.forall_mem_nil _, fun _ => rfl⟩ h
  | cons e es ih =>
    obtain ⟨he, hes⟩ := List.forall_mem_cons.mp hargs
    cases params with
    | nil => cases harity
    | cons name params =>
      refine he.take .call h (suffix_of_eq hstack) fun {value m₁ env₁} hstack₁ hvalue h₁ => ?_
      have hrest := ih hes (Nat.succ.inj harity) (frame.insert name value) h₁ (hstack₁.trans hstack)
      refine hrest.map fun hbound => ?_
      obtain ⟨hstack₂, hvalues, hover⟩ := hbound
      refine ⟨hstack₂, List.forall_mem_cons.mpr ⟨hvalue, hvalues⟩, fun env => ?_⟩
      rw [hover, Frame.onto_insert]
      rfl

/-- What a body did to its own frame is gone with the frame. -/
theorem Follows.pop {s s' t : Scopes} {env env' : Env} {frame : Frame} (h : Follows s s' env)
    (hbody : Follows (s'.push frame) t env') : Follows s t.pop env := by
  have hcaller : t.pop = s' := Scopes.pop_of_outer hbody.outer
  rwa [hcaller]

/-- The body runs in the environment that the frame makes of the one of the caller. -/
theorem agrees_inFrame {body : Work Unit} {body' : Run Value} (hbody : Simulates body body')
    {frame : Frame} {bindings : List (String × Value)} {m m' : Machine} {env : Env}
    (h : Follows m.scopes m'.scopes env) (hstack : m'.stack = m.stack)
    (hover : frame.onto env = env.bind bindings)
    (hbindings : ∀ b ∈ bindings, b.2.NoEmptyBlock) :
    Agrees m (Pushed m.stack) (inFrame frame body m') (locally bindings body' env) := by
  have henv : (m'.scopes.push frame).resolve? = env.bind bindings := by
    rw [Scopes.resolve?_push_eq_onto, h.resolves, hover]
  have hrun := hbody { m' with scopes := m'.scopes.push frame }
    (by rw [henv]; exact h.noEmptyBlock.bind hbindings)
  rw [henv] at hrun
  -- the end of the body decides the end of the call, and either way the caller's scopes are back
  rw [inFrame, locally]
  generalize body { m' with scopes := m'.scopes.push frame } = r at hrun
  generalize body' (env.bind bindings) = r' at hrun
  cases hrun with
  | ok hpushed h₁ =>
    rw [← hstack]
    exact .ok hpushed (h.pop h₁)
  | error hstack₁ h₁ he => exact .error ((suffix_of_eq hstack).trans hstack₁) (h.pop h₁) he

/-- The callee is checked before the arguments are evaluated, and by both in the same order. -/
theorem simulates_call {visit : Expr → Work Unit} {eval : Expr → Run Value} {callee : Expr}
    {args : List Expr} (hvisit : ∀ e, e.NoEmptyBlock → Simulates (visit e) (eval e))
    (hcallee : callee.NoEmptyBlock) (hargs : ∀ e ∈ args, e.NoEmptyBlock) :
    Simulates
      (do
        visit callee
        match ← pop .call with
        | .num a => Machine.fail (.notAFunction (Value.num a).text)
        | .func params body =>
          if params.length = args.length then
            let frame ← bindArgs visit (params.zip args) .empty
            inFrame frame (visit body)
          else Machine.fail (.wrongArity params.length args.length))
      (do
        match ← eval callee with
        | .num a => throw (.runtime (.notAFunction (Value.num a).text))
        | .func params body =>
          if params.length = args.length then
            let values ← evalArgs eval args
            locally (params.zip values) (eval body)
          else throw (.runtime (.wrongArity params.length args.length))) := by
  intro m hm
  refine (hvisit callee hcallee).take .call (.start hm) (List.suffix_refl _)
    fun {value m₁ env₁} hstack hvalue h => ?_
  cases value with
  | num a => exact agrees_fail nofun hstack h
  | func params body =>
    by_cases harity : params.length = args.length
    · simp only [harity, if_true]
      have hbound := agrees_args (fun e he => hvisit e (hargs e he)) harity .empty h hstack
      refine hbound.bind fun {frame values m₂ env₂} hframe h₂ => ?_
      obtain ⟨hstack₂, hvalues, hover⟩ := hframe
      refine agrees_inFrame (hvisit body hvalue) h₂ hstack₂ (hover env₂) fun b hb => ?_
      exact hvalues b.2 (List.of_mem_zip hb).2
    · simp only [harity, if_false]
      exact agrees_fail nofun hstack h

/-- **Both go the same way**, within every limit. -/
theorem simulates_visit (depth : ℕ) {e : Expr} (he : e.NoEmptyBlock) :
    Simulates (visit depth e) (eval depth e) := by
  induction depth generalizing e with
  | zero => exact fun _ hm => .error (List.suffix_refl _) (.start hm) nofun
  | succ depth ih =>
    cases he with
    | malformed message => exact simulates_malformed message
    | block hne h => exact simulates_block hne fun e he => ih (h e he)
    | int value => exact simulates_push trivial
    | binary op hleft hright => exact simulates_binary op (ih hleft) (ih hright)
    | unary op h => exact simulates_unary op (ih h)
    | paren h => exact ih h
    | declare name h => exact simulates_declare name (ih h)
    | var name => exact simulates_var name
    | func params h => exact simulates_push h
    | call hcallee hargs => exact simulates_call (fun _ he => ih he) hcallee hargs

end Refinement

/-- A run of the machine from `m` has the result of the interpreter. Its value is on top of the
old stack, or its error was raised with the old stack at the bottom, and it is not that a value was
missing. -/
def Refinement.Matches (m : Machine) :
    EStateM.Result Error Machine Unit → EStateM.Result Error Env Value → Prop
  | .ok _ m', .ok value env => m'.stack = value :: m.stack ∧ m'.scopes.resolve? = env
  | .error e m', .error e' env =>
    e = e' ∧ m.stack <:+ m'.stack ∧ m'.scopes.resolve? = env ∧
      ∀ op, e ≠ .runtime (.stackUnderflow op)
  | _, _ => False

/-- **The machine refines the interpreter.** Whenever the machine returns, from whatever stack and
scopes, the interpreter has exactly one result in the environment of the scopes, and the machine has
it too. -/
theorem Machine.visit_refines {e : Expr} (he : e.NoEmptyBlock) {m : Machine}
    (hm : Env.NoEmptyBlock m.scopes.resolve?) {depth : ℕ} (hreturns : Returns (visit depth e m)) :
    ∃ r, (∀ r', Evaluates m.scopes.resolve? e r' ↔ r' = r) ∧
      Refinement.Matches m (visit depth e m) r := by
  -- within the limit of this run the interpreter gets as far, and its result holds for every limit
  have hagrees := Refinement.simulates_visit depth he m hm
  generalize hrun : visit depth e m = run at hagrees hreturns
  generalize heval : Reference.eval depth e m.scopes.resolve? = r at hagrees
  have hr : Returns r := by
    cases hagrees with
    | ok => exact fun _ => nofun
    | error =>
      intro env henv
      cases henv
      exact hreturns _ rfl
  have hevaluates : Evaluates m.scopes.resolve? e r := ⟨hr, depth, heval⟩
  refine ⟨r, fun r' => ⟨fun h => h.unique hevaluates, fun h => h ▸ hevaluates⟩, ?_⟩
  cases hagrees with
  | ok hpushed h => exact ⟨hpushed.1, h.resolves⟩
  | error hstack h he => exact ⟨rfl, hstack, h.resolves, he⟩

/-- The run of `f(() => 2)`, where `f` is a function with a block for its body. -/
theorem Machine.visit_refines_call :
    let body : Expr := .block [.int 1, .declare "y" (.var "x")]
    let e : Expr := .call (.var "f") [.func [] (.int 2)]
    let m : Machine := ⟨[.func [] (.var "z")], Scopes.empty.declare "f" (.func ["x"] body)⟩
    e.NoEmptyBlock ∧ Env.NoEmptyBlock m.scopes.resolve? ∧ Returns (visit 4 e m) ∧
      ∃ r, (∀ r', Evaluates m.scopes.resolve? e r' ↔ r' = r) ∧
        Refinement.Matches m (visit 4 e m) r := by
  intro body e m
  have he : e.NoEmptyBlock := .call (.var "f") (List.forall_mem_singleton.mpr (.func [] (.int 2)))
  have hbody : body.NoEmptyBlock := by
    refine .block (List.cons_ne_nil _ _) ?_
    simp only [List.forall_mem_cons]
    exact ⟨.int 1, .declare "y" (.var "x"), List.forall_mem_nil _⟩
  have hm : Env.NoEmptyBlock m.scopes.resolve? := by
    have hempty : Env.NoEmptyBlock Scopes.empty.resolve? := fun _ _ h => by cases h
    rw [Scopes.resolve?_declare]
    exact hempty.update "f" hbody
  have hreturns : Returns (visit 4 e m) := by
    have hrun : visit 4 e m = .ok () { m with stack := .func [] (.int 2) :: m.stack } := rfl
    rw [hrun]
    exact fun _ => nofun
  exact ⟨he, hm, hreturns, visit_refines he hm hreturns⟩

end ArrowCalc
