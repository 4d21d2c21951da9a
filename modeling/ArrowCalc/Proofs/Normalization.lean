import ArrowCalc.Proofs.Refinement

/-!
# Trees without unary plus

Unary plus does nothing to a number, and parentheses do nothing at all. `Expr.norm` drops every
unary plus of a tree, also in the bodies of functions, and one pair of parentheses around each
operand of a power. A tree and its normal form evaluate alike, except that the normal form does not
fail where a plus is put in front of a function.

The two evaluations do not hold the same values, since the bodies of functions were rewritten too.
Where one has a value, the other has its normal form, and the environments correspond name by name.
Nobody can tell the difference, since the text of a function does not show its body.

A plus in front of a function is an error, and its normal form is none. So nothing is said about
runs with this error, and about runs that were stopped by the limit. The normal form is nested less
deeply, and may come to an end within a limit that stops the tree.

## Main definitions

* `Expr.norm`, `Value.norm`, `Reference.Env.norm` — normal forms
* `Normalization.Keeps` — a run and its counterpart on normal forms have the same result

## Main results

* `Normalization.keeps_eval` — the interpreter has the same result on the normal form
* `Expr.evaluate_norm` — so has the evaluation on a fresh machine
-/

namespace ArrowCalc

open Reference

/-! ### Normal forms

A power is written as a call, whose arguments need no parentheses. So there is a flag for the trees
that lose the parentheses at their root. -/

mutual

/-- The normal form of a tree, without the parentheses at its root if it is `bare`. -/
def Expr.normAs (bare : Bool) : Expr → Expr
  | .malformed message => .malformed message
  | .block statements => .block (Expr.normEach statements)
  | .int value => .int value
  | .binary .pow left right => .binary .pow (left.normAs true) (right.normAs true)
  | .binary op left right => .binary op (left.normAs false) (right.normAs false)
  | .unary .plus operand => operand.normAs false
  | .unary .minus operand => .unary .minus (operand.normAs false)
  | .paren inner => if bare then inner.normAs false else .paren (inner.normAs false)
  | .declare name value => .declare name (value.normAs false)
  | .var name => .var name
  | .func params body => .func params (body.normAs false)
  | .call callee args => .call (callee.normAs false) (Expr.normEach args)

/-- The normal forms of a list of trees. -/
def Expr.normEach : List Expr → List Expr
  | [] => []
  | e :: es => e.normAs false :: Expr.normEach es

end

namespace Expr

/-- The tree without its unary pluses, and without one pair of parentheses around each operand of a
power. -/
def norm (e : Expr) : Expr := e.normAs false

/-- The tree without the parentheses at its root. -/
def stripParen : Expr → Expr
  | .paren inner => inner
  | e => e

/-- The flag takes away the parentheses at the root, and nothing else. -/
theorem normAs_true (e : Expr) : e.normAs true = e.stripParen.norm := by
  cases e with
  | binary op => cases op <;> rfl
  | unary op => cases op <;> rfl
  | _ => rfl

theorem norm_pow (left right : Expr) :
    (binary .pow left right).norm = .binary .pow left.stripParen.norm right.stripParen.norm := by
  rw [← normAs_true, ← normAs_true]
  rfl

theorem normEach_eq_map (es : List Expr) : normEach es = es.map norm := by
  induction es with
  | nil => rfl
  | cons e es ih =>
    rw [normEach, ih]
    rfl

/-- Blocks keep their statements. -/
theorem NoEmptyBlock.normAs {e : Expr} (h : e.NoEmptyBlock) (bare : Bool) :
    (e.normAs bare).NoEmptyBlock := by
  induction h generalizing bare with
  | malformed message => exact .malformed message
  | @block statements hne _ ih =>
    have hnorm : (Expr.block statements).normAs bare = .block (statements.map norm) := by
      rw [Expr.normAs, normEach_eq_map]
    rw [hnorm]
    refine .block (by simpa using hne) (List.forall_mem_map.mpr fun e he => ih e he false)
  | int value => exact .int value
  | binary op _ _ ihleft ihright =>
    cases op with
    | pow => exact .binary .pow (ihleft true) (ihright true)
    | add | sub | mul | div => exact .binary _ (ihleft false) (ihright false)
  | unary op _ ih =>
    cases op with
    | plus => exact ih false
    | minus => exact .unary .minus (ih false)
  | paren _ ih =>
    cases bare with
    | true => exact ih false
    | false => exact .paren (ih false)
  | declare name _ ih => exact .declare name (ih false)
  | var name => exact .var name
  | func params _ ih => exact .func params (ih false)
  | @call callee args _ _ ihcallee ihargs =>
    have hnorm : (Expr.call callee args).normAs bare = .call callee.norm (args.map norm) := by
      rw [Expr.normAs, normEach_eq_map]
      rfl
    rw [hnorm]
    exact .call (ihcallee false) (List.forall_mem_map.mpr fun e he => ihargs e he false)

end Expr

/-- The value with the normal form of its body, if it is a function. -/
def Value.norm : Value → Value
  | .num a => .num a
  | .func params body => .func params body.norm

@[simp] theorem Value.text_norm (v : Value) : v.norm.text = v.text := by cases v <;> rfl

namespace Reference.Env

/-- The environment with the normal forms of its values. -/
def norm (env : Env) : Env := fun name => (env name).map Value.norm

theorem norm_update (env : Env) (name : String) (value : Value) :
    Env.norm (Function.update env name (some value)) =
      Function.update env.norm name (some value.norm) := by
  funext other
  by_cases h : other = name
  · subst h
    simp only [norm, Function.update_self, Option.map_some]
  · simp only [norm, Function.update_of_ne h]

/-- Binding names and taking normal forms may be done in either order. -/
theorem norm_bind (env : Env) (bindings : List (String × Value)) :
    (env.bind bindings).norm = env.norm.bind (bindings.map fun b => (b.1, b.2.norm)) := by
  induction bindings generalizing env with
  | nil => rfl
  | cons b bindings ih =>
    have hstep : env.bind (b :: bindings) =
        Env.bind (Function.update env b.1 (some b.2)) bindings := rfl
    rw [hstep, ih, norm_update]
    rfl

end Reference.Env

namespace Normalization

/-! ### Corresponding runs

`Keeps` relates two runs, of which the second one works on normal forms. The lemmas follow the
interpreter: one for each way in which it puts runs together. -/

/-- A unary plus was put in front of what is no number. -/
def IsBadPlus (e : Error) : Prop := ∃ operand, e = .runtime (.badUnaryOperand "+" operand)

/-- The run came to an end, and did not fail at a unary plus. -/
def Settled {α : Type} (r : EStateM.Result Error Env α) : Prop :=
  ∀ e env, r = .error e env → e ≠ .tooDeep ∧ ¬ IsBadPlus e

/-- The result with a normal environment, and with its value mapped by `f`. -/
def normResult {α β : Type} (f : α → β) :
    EStateM.Result Error Env α → EStateM.Result Error Env β
  | .ok a env => .ok (f a) env.norm
  | .error e env => .error e env.norm

/-- If `x` settles, then `y` does the same to normal forms. -/
def Keeps {α β : Type} (f : α → β) (x : Run α) (y : Run β) : Prop :=
  ∀ env : Env, Settled (x env) → y env.norm = normResult f (x env)

section Keeps

variable {α β γ δ : Type} {f : α → β} {x : Run α} {y : Run β}

theorem keeps_pure (f : α → β) (a : α) : Keeps f (pure a) (pure (f a)) := fun _ _ => rfl

theorem keeps_throw (f : α → β) (e : Error) : Keeps f (throw e) (throw e) := fun _ _ => rfl

theorem keeps_get : Keeps Env.norm (get : Run Env) get := fun _ _ => rfl

theorem settled_ok (a : α) (env : Env) : Settled (.ok a env : EStateM.Result Error Env α) :=
  fun _ _ => nofun

/-- Runs in sequence correspond if their steps do. -/
theorem Keeps.bind {g : γ → δ} {k : α → Run γ} {l : β → Run δ} (h : Keeps f x y)
    (hkl : ∀ a, Keeps g (k a) (l (f a))) : Keeps g (x >>= k) (y >>= l) := by
  intro env hsettled
  cases hx : x env with
  | ok a env' =>
    have hy : y env.norm = .ok (f a) env'.norm := by
      rw [h env (by rw [hx]; exact settled_ok a env'), hx]
      rfl
    rw [bind_of_ok hx] at hsettled ⊢
    rw [bind_of_ok hy]
    exact hkl a env' hsettled
  | error e env' =>
    rw [bind_of_error hx] at hsettled ⊢
    have hy : y env.norm = .error e env'.norm := by
      rw [h env]
      · rw [hx]
        rfl
      · rw [hx]
        intro e₀ env₀ h₀
        cases h₀
        exact hsettled e env' rfl
    rw [bind_of_error hy]
    rfl

/-- What is settled does not depend on the limit. -/
theorem Keeps.extend {y' : Run β} (h : Keeps f x y) (hy : Extends y y') : Keeps f x y' := by
  intro env hsettled
  have hxy := h env hsettled
  rw [← hxy]
  refine hy env.norm fun env' herror => ?_
  rw [hxy] at herror
  cases hx : x env with
  | ok a env₀ =>
    rw [hx] at herror
    cases herror
  | error e env₀ =>
    rw [hx] at herror hsettled
    cases herror
    exact (hsettled _ _ rfl).1 rfl

theorem keeps_ofResult {r r' : Except RuntimeError Value} (h : r' = r.map Value.norm) :
    Keeps Value.norm (ofResult r) (ofResult r') := by
  rw [h]
  cases r with
  | ok value => exact keeps_pure _ value
  | error e => exact keeps_throw _ _

end Keeps

/-- Operators look at numbers, which are their own normal forms, and at the text of anything else.
-/
theorem applyBinary_norm (op : BinaryOp) (a b : Value) :
    Machine.applyBinary op a.norm b.norm = (Machine.applyBinary op a b).map Value.norm := by
  cases a <;> cases b <;> rfl

theorem applyUnary_norm (op : UnaryOp) (a : Value) :
    Machine.applyUnary op a.norm = (Machine.applyUnary op a).map Value.norm := by
  cases a <;> cases op <;> rfl

/-- A plus that does not fail does nothing. -/
theorem Keeps.of_plus {x y : Run Value} (h : Keeps Value.norm x y) :
    Keeps Value.norm (x >>= fun a => ofResult (Machine.applyUnary .plus a)) y := by
  intro env hsettled
  cases hx : x env with
  | ok a env' =>
    rw [bind_of_ok hx] at hsettled ⊢
    cases a with
    | num a =>
      rw [h env (by rw [hx]; exact settled_ok _ env'), hx]
      rfl
    | func params body => exact absurd ⟨_, rfl⟩ (hsettled _ env' rfl).2
  | error e env' =>
    rw [bind_of_error hx] at hsettled ⊢
    rw [h env (by rw [hx]; exact hsettled), hx]

/-- Blocks correspond if their statements do. -/
theorem keeps_evalBlock {eval eval' : Expr → Run Value}
    (h : ∀ e, Keeps Value.norm (eval e) (eval' e.norm)) (es : List Expr) :
    Keeps Value.norm (evalBlock eval es) (evalBlock eval' (es.map Expr.norm)) := by
  induction es with
  | nil => exact keeps_throw _ _
  | cons e es ih =>
    cases es with
    | nil => exact h e
    | cons e' es => exact (h e).bind fun _ => ih

/-- Arguments correspond one by one. -/
theorem keeps_evalArgs {eval eval' : Expr → Run Value}
    (h : ∀ e, Keeps Value.norm (eval e) (eval' e.norm)) (es : List Expr) :
    Keeps (List.map Value.norm) (evalArgs eval es) (evalArgs eval' (es.map Expr.norm)) := by
  induction es with
  | nil => exact keeps_pure _ []
  | cons e es ih =>
    exact (h e).bind fun value => ih.bind fun values => keeps_pure _ (value :: values)

/-- Bodies correspond with corresponding arguments, and the environment is put back after both. -/
theorem Keeps.locally {x y : Run Value} (h : Keeps Value.norm x y) (params : List String)
    (values : List Value) :
    Keeps Value.norm (locally (params.zip values) x)
      (Reference.locally (params.zip (values.map Value.norm)) y) := by
  intro env hsettled
  have hbind : env.norm.bind (params.zip (values.map Value.norm)) =
      (env.bind (params.zip values)).norm := by
    rw [Env.norm_bind, List.zip_map_right]
    rfl
  have hbody : Settled (x (env.bind (params.zip values))) := by
    intro e env' he
    rw [Reference.locally, he] at hsettled
    exact hsettled e env rfl
  rw [Reference.locally, Reference.locally, hbind, h _ hbody]
  cases x (env.bind (params.zip values)) <;> rfl

/-- **The interpreter has the same result on the normal form**, if it settles. -/
theorem keeps_eval (depth : ℕ) (bare : Bool) (e : Expr) :
    Keeps Value.norm (eval depth e) (eval depth (e.normAs bare)) := by
  induction depth generalizing bare e with
  | zero => exact keeps_throw _ _
  | succ depth ih =>
    have ihnorm : ∀ e, Keeps Value.norm (eval depth e) (eval depth e.norm) := ih false
    -- the counterpart of a node that is dropped is nested one level less deeply
    have ihdrop : ∀ e, Keeps Value.norm (eval depth e) (eval (depth + 1) e.norm) := fun e =>
      (ihnorm e).extend (extends_eval_succ depth e.norm)
    cases e with
    | malformed message => exact keeps_throw _ _
    | block statements =>
      rw [Expr.normAs, Expr.normEach_eq_map]
      exact keeps_evalBlock ihnorm statements
    | int value => exact keeps_pure _ _
    | binary op left right =>
      have hoperands : ∀ bare, Keeps Value.norm (eval (depth + 1) (.binary op left right))
          (eval (depth + 1) (.binary op (left.normAs bare) (right.normAs bare))) := fun bare =>
        (ih bare left).bind fun a => (ih bare right).bind fun b =>
          keeps_ofResult (applyBinary_norm op a b)
      cases op with
      | pow => exact hoperands true
      | add | sub | mul | div => exact hoperands false
    | unary op operand =>
      cases op with
      | plus => exact (ihdrop operand).of_plus
      | minus => exact (ihnorm operand).bind fun a => keeps_ofResult (applyUnary_norm .minus a)
    | paren inner =>
      cases bare with
      | true => exact ihdrop inner
      | false => exact ihnorm inner
    | declare name value =>
      refine (ihnorm value).bind fun a => ?_
      have hmodify : Keeps id
          (modify fun env => Function.update env name (some a) : Run PUnit)
          (modify fun env => Function.update env name (some a.norm)) := by
        intro env _
        show EStateM.Result.ok () _ = .ok () _
        rw [Env.norm_update]
      exact hmodify.bind fun _ => keeps_pure _ a
    | var name =>
      refine keeps_get.bind fun env => ?_
      rw [Env.norm]
      cases env name with
      | some value => exact keeps_pure _ value
      | none => exact keeps_throw _ _
    | func params body => exact keeps_pure _ _
    | call callee args =>
      rw [Expr.normAs, Expr.normEach_eq_map]
      refine (ihnorm callee).bind fun f => ?_
      cases f with
      | num a => exact keeps_throw _ _
      | func params body =>
        simp only [Value.norm, List.length_map]
        by_cases harity : params.length = args.length
        · simp only [harity, if_true]
          exact (keeps_evalArgs ihnorm args).bind fun values => (ihnorm body).locally params values
        · simp only [harity, if_false]
          exact keeps_throw _ _

end Normalization

/-! ### Evaluation on a fresh machine

The interpreter and the machine have the same results where blocks have statements, and dropping
nodes does not empty a block. -/

namespace Reference

/-- What is seen of a result: the text of its value, or its error. -/
def shown : EStateM.Result Error Env Value → Except Error String
  | .ok value _ => .ok value.text
  | .error e _ => .error e

/-- A fresh machine shows what the interpreter shows. -/
theorem shown_eval {e : Expr} (he : e.NoEmptyBlock) (depth : ℕ) :
    e.evaluate depth = shown (eval depth e fun _ => none) := by
  have hempty : Env.NoEmptyBlock Machine.start.scopes.resolve? := fun _ _ h => by cases h
  have hagrees := Refinement.simulates_visit depth he Machine.start hempty
  have hnone : Machine.start.scopes.resolve? = fun _ => none := rfl
  rw [hnone] at hagrees
  generalize hrun : Machine.visit depth e Machine.start = run at hagrees
  generalize eval depth e (fun _ => none) = r at hagrees
  cases hagrees with
  | @ok _ value m env hpushed _ =>
    have heval : Machine.eval depth e Machine.start = .ok value { m with stack := [] } := by
      rw [Machine.eval, bind_of_ok hrun, Machine.pop, hpushed.1]
      rfl
    rw [Expr.evaluate, heval]
    rfl
  | @error error m env _ _ _ =>
    have heval : Machine.eval depth e Machine.start = .error error m := bind_of_error hrun
    rw [Expr.evaluate, heval]
    rfl

end Reference

/-- **Dropping unary plus keeps the result.** A tree without empty blocks whose evaluation comes to
an end, with a value or with an error other than that of a unary plus, has the same result in its
normal form, also where deeper nesting is allowed. -/
theorem Expr.evaluate_norm {t : Expr} (ht : t.NoEmptyBlock) {depth : ℕ}
    (hreturns : t.evaluate depth ≠ .error .tooDeep)
    (hplus : ∀ operand, t.evaluate depth ≠ .error (.runtime (.badUnaryOperand "+" operand)))
    {depth' : ℕ} (hle : depth ≤ depth') : t.norm.evaluate depth' = t.evaluate depth := by
  have hnorm : t.norm.NoEmptyBlock := ht.normAs false
  rw [shown_eval ht] at hreturns hplus ⊢
  rw [shown_eval hnorm]
  have hsettled : Normalization.Settled (eval depth t fun _ => none) := by
    intro e env he
    rw [he] at hreturns hplus
    refine ⟨fun h => hreturns (congrArg Except.error h), ?_⟩
    rintro ⟨operand, rfl⟩
    exact hplus operand rfl
  have hempty : Env.norm (fun _ => none) = fun _ => none := rfl
  have hkeeps := (Normalization.keeps_eval depth false t).extend (extends_eval hle _) _ hsettled
  rw [hempty] at hkeeps
  rw [norm, hkeeps]
  cases eval depth t fun _ => none with
  | ok value env => exact congrArg Except.ok value.text_norm
  | error e env => rfl

/-- The square of a number by a function with a unary plus, and a plus in front of the call. -/
theorem Expr.evaluate_norm_square :
    let square : Expr := .func ["x"] (.binary .pow (.paren (.unary .plus (.var "x"))) (.int 2))
    let t : Expr := .block [.declare "f" square, .unary .plus (.call (.var "f") [.int 3])]
    t.NoEmptyBlock ∧ t.evaluate 8 ≠ .error .tooDeep ∧
      (∀ operand, t.evaluate 8 ≠ .error (.runtime (.badUnaryOperand "+" operand))) ∧
      t.norm.evaluate 8 = t.evaluate 8 := by
  intro square t
  have hsquare : square.NoEmptyBlock :=
    .func ["x"] (.binary .pow (.paren (.unary .plus (.var "x"))) (.int 2))
  have ht : t.NoEmptyBlock := by
    refine .block (List.cons_ne_nil _ _) ?_
    simp only [List.forall_mem_cons]
    exact ⟨.declare "f" hsquare,
      .unary .plus (.call (.var "f") (List.forall_mem_singleton.mpr (.int 3))),
      List.forall_mem_nil _⟩
  have hvalue : t.evaluate 8 =
      .ok (Number.text (Float.pow (Float.ofInt 3) (Float.ofInt 2))) := rfl
  have hreturns : t.evaluate 8 ≠ .error .tooDeep := by
    rw [hvalue]
    exact nofun
  have hplus : ∀ operand, t.evaluate 8 ≠ .error (.runtime (.badUnaryOperand "+" operand)) := by
    rw [hvalue]
    exact nofun
  exact ⟨ht, hreturns, hplus, evaluate_norm ht hreturns hplus (Nat.le_refl 8)⟩

end ArrowCalc
