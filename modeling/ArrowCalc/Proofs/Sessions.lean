import ArrowCalc.Proofs.Limits

/-!
# Sessions

A machine can evaluate one program after the other. What a program declared is still there for the
next one, and what a failed program left on the stack is still there too.

Two programs in a session do what one program with the statements of both does. Where the first
program is over, the one program takes the value of its last statement from the stack and goes on,
so both stand at the same machine (`eval_block_append`). And no program looks at the values that lie
on the stack when it begins, because its result is that of the reference interpreter, which has no
stack (`agrees_eval`).

Both need that every block has a statement. An empty block pushes nothing, so whoever waits for its
value takes what an earlier program left.

## Main definitions

* `Machine.transcript` — what is seen of the programs of a session

## Main results

* `Machine.eval_block_append` — the statements of two programs as one program
* `Machine.transcript_congr` — what lies on the stack between programs does not matter
* `Machine.sessions_agree` — sessions agree with whole programs
-/

namespace ArrowCalc

open Reference Refinement

namespace Machine

/-! ### One program instead of two -/

/-- Statements are evaluated one after the other, and all values but the last are dropped. -/
theorem visitBlock_append (visit : Expr → Work Unit) {es fs : List Expr} (hes : es ≠ [])
    (hfs : fs ≠ []) :
    visitBlock visit (es ++ fs) =
      (do visitBlock visit es; let _ ← pop .block; visitBlock visit fs) := by
  induction es with
  | nil => exact absurd rfl hes
  | cons e es ih =>
    cases es with
    | nil =>
      obtain ⟨f, fs, rfl⟩ := List.exists_cons_of_ne_nil hfs
      rfl
    | cons e' es =>
      have hrest := ih (List.cons_ne_nil _ _)
      rw [List.cons_append] at hrest
      simp only [List.cons_append, visitBlock, bind_assoc, hrest]

/-- **Two programs as one**, within every limit. -/
theorem eval_block_append {es fs : List Expr} (hes : es ≠ []) (hfs : fs ≠ [])
    (hblocks : ∀ e ∈ es, e.NoEmptyBlock) {m : Machine} (hm : Env.NoEmptyBlock m.scopes.resolve?)
    (depth : ℕ) :
    eval depth (.block (es ++ fs)) m =
      (eval depth (.block es) >>= fun _ => eval depth (.block fs)) m := by
  cases depth with
  | zero => rfl
  | succ depth =>
    have hagrees := simulates_visit (depth + 1) (.block hes hblocks) m hm
    have hwhole : visit (depth + 1) (.block (es ++ fs)) =
        (do visit (depth + 1) (.block es); let _ ← pop .block; visit (depth + 1) (.block fs)) :=
      visitBlock_append (visit depth) hes hfs
    simp only [eval, hwhole, bind_assoc]
    generalize hrun : visit (depth + 1) (.block es) m = run at hagrees
    generalize Reference.eval (depth + 1) (.block es) m.scopes.resolve? = r at hagrees
    cases hagrees with
    | ok hpushed _ =>
      -- the value is on top, so it does not matter on whose behalf it is taken
      rw [bind_of_ok hrun, bind_of_ok hrun, pop_bind hpushed.1, pop_bind hpushed.1]
    | error => rw [bind_of_error hrun, bind_of_error hrun]

section Append

variable {es fs : List Expr} {m m₁ : Machine}

/-- A program of two parts whose first part succeeds goes on with the second part. -/
theorem evaluates_append_of_ok (hes : es ≠ []) (hfs : fs ≠ []) (hblocks : ∀ e ∈ es, e.NoEmptyBlock)
    (hm : Env.NoEmptyBlock m.scopes.resolve?) {value : Value}
    (h : Evaluates m (.block es) (.ok value m₁)) (r : EStateM.Result Error Machine Value) :
    Evaluates m₁ (.block fs) r ↔ Evaluates m (.block (es ++ fs)) r := by
  obtain ⟨depth, hfirst⟩ := h.settles
  -- from this limit on, the whole program and its second part run alike
  have hwhole : ∀ n ≥ depth, eval n (.block (es ++ fs)) m = eval n (.block fs) m₁ := by
    intro n hn
    rw [eval_block_append hes hfs hblocks hm, bind_of_ok (hfirst n hn)]
  constructor
  · exact fun hr => evaluates_of_settles hr.1 (hr.settles.congr hwhole)
  · exact fun hr => evaluates_of_settles hr.1 (hr.settles.congr fun n hn => (hwhole n hn).symm)

/-- A program of two parts whose first part fails is over there. -/
theorem evaluates_append_of_error (hes : es ≠ []) (hfs : fs ≠ [])
    (hblocks : ∀ e ∈ es, e.NoEmptyBlock) (hm : Env.NoEmptyBlock m.scopes.resolve?) {error : Error}
    (h : Evaluates m (.block es) (.error error m₁)) :
    Evaluates m (.block (es ++ fs)) (.error error m₁) := by
  obtain ⟨hreturns, depth, hfirst⟩ := h
  refine ⟨hreturns, depth, ?_⟩
  rw [eval_block_append hes hfs hblocks hm, bind_of_error hfirst]

/-- A program of two parts that comes to an end does so in its first part too. -/
theorem exists_evaluates_of_append (hes : es ≠ []) (hfs : fs ≠ [])
    (hblocks : ∀ e ∈ es, e.NoEmptyBlock) (hm : Env.NoEmptyBlock m.scopes.resolve?)
    {r : EStateM.Result Error Machine Value} (h : Evaluates m (.block (es ++ fs)) r) :
    ∃ r₁, Evaluates m (.block es) r₁ := by
  obtain ⟨hreturns, depth, rfl⟩ := h
  rw [eval_block_append hes hfs hblocks hm] at hreturns
  exact ⟨_, evaluates_eval hreturns.of_bind⟩

end Append

/-! ### What lies on the stack -/

/-- The machine evaluates to the value of the interpreter, and a success leaves the stack as it
was. -/
theorem agrees_eval {e : Expr} (he : e.NoEmptyBlock) {m : Machine}
    (hm : Env.NoEmptyBlock m.scopes.resolve?) (depth : ℕ) :
    Agrees m (fun value stack value' => value = value' ∧ stack = m.stack) (eval depth e m)
      (Reference.eval depth e m.scopes.resolve?) := by
  have hagrees := simulates_visit depth he m hm
  rw [eval]
  generalize hrun : visit depth e m = run at hagrees
  generalize Reference.eval depth e m.scopes.resolve? = r at hagrees
  cases hagrees with
  | @ok _ value m' env hpushed h =>
    have hpop : pop .result m' = .ok value { m' with stack := m.stack } := by
      rw [pop, hpushed.1]
    rw [bind_of_ok hrun, hpop]
    exact .ok ⟨rfl, rfl⟩ h
  | error hstack h hcause =>
    rw [bind_of_error hrun]
    exact .error hstack h hcause

/-- What is seen of an evaluation: its value or its error, and what each name means afterwards. -/
def seen (r : EStateM.Result Error Machine Value) : Except Error Value × Env :=
  match r with
  | .ok value m => (.ok value, m.scopes.resolve?)
  | .error error m => (.error error, m.scopes.resolve?)

theorem seen_snd (r : EStateM.Result Error Machine Value) :
    (seen r).2 = (after r).scopes.resolve? := by
  cases r <;> rfl

/-- What is seen of an evaluation depends on what the names mean, and not on the stack. -/
theorem seen_eval_congr {e : Expr} (he : e.NoEmptyBlock) {m m' : Machine}
    (hm : Env.NoEmptyBlock m.scopes.resolve?) (h : m'.scopes.resolve? = m.scopes.resolve?)
    (depth : ℕ) :
    seen (eval depth e m') = seen (eval depth e m) ∧ (seen (eval depth e m)).2.NoEmptyBlock := by
  have hagrees := agrees_eval he hm depth
  have hagrees' := agrees_eval he (h ▸ hm) depth
  rw [h] at hagrees'
  generalize Reference.eval depth e m.scopes.resolve? = r at hagrees hagrees'
  generalize eval depth e m = run at hagrees ⊢
  generalize eval depth e m' = run' at hagrees' ⊢
  cases hagrees with
  | ok hvalue hfollows =>
    cases hagrees' with
    | ok hvalue' hfollows' =>
      simp only [seen, hvalue.1, hvalue'.1, hfollows.resolves, hfollows'.resolves]
      exact ⟨trivial, hfollows.noEmptyBlock⟩
  | error _ hfollows _ =>
    cases hagrees' with
    | error _ hfollows' _ =>
      simp only [seen, hfollows.resolves, hfollows'.resolves]
      exact ⟨trivial, hfollows.noEmptyBlock⟩

/-- What is seen of the programs of a session, each with a limit of its own. The programs are
evaluated one after the other, whatever becomes of them, and `meddle` changes the stack after each
of them. -/
def transcript (meddle : List Value → List Value) (m : Machine) :
    List (ℕ × Expr) → List (Except Error Value × Env)
  | [] => []
  | (depth, e) :: programs =>
    let r := eval depth e m
    seen r :: transcript meddle { after r with stack := meddle (after r).stack } programs

/-- **What lies on the stack between programs does not matter.** -/
theorem transcript_congr {programs : List (ℕ × Expr)} (hprograms : ∀ p ∈ programs, p.2.NoEmptyBlock)
    {m m' : Machine} (hm : Env.NoEmptyBlock m.scopes.resolve?)
    (h : m'.scopes.resolve? = m.scopes.resolve?) (meddle meddle' : List Value → List Value) :
    transcript meddle' m' programs = transcript meddle m programs := by
  induction programs generalizing m m' with
  | nil => rfl
  | cons p programs ih =>
    obtain ⟨hp, hprograms⟩ := List.forall_mem_cons.mp hprograms
    obtain ⟨hseen, hnext⟩ := seen_eval_congr hp hm h p.1
    have hnames := congrArg Prod.snd hseen
    rw [seen_snd, seen_snd] at hnames
    rw [seen_snd] at hnext
    exact congrArg₂ List.cons hseen (ih hprograms hnext hnames)

/-! ### Sessions and whole programs -/

/-- **Sessions agree with whole programs.** Take a machine, and two lists of statements. If the
first list succeeds as a program, then the second list as the next program has the result of one
program with all statements. If the first list fails, then so does the one program, at the same
machine. And if the one program comes to an end, so does the first list.

What is seen of the programs of a session is the same from whatever stack it begins, and also if the
stack is changed after each program. -/
theorem sessions_agree {m : Machine} (hm : Env.NoEmptyBlock m.scopes.resolve?) :
    (∀ es fs : List Expr, es ≠ [] → fs ≠ [] → (∀ e ∈ es, e.NoEmptyBlock) →
      (∀ value m₁, Evaluates m (.block es) (.ok value m₁) →
        ∀ r, Evaluates m₁ (.block fs) r ↔ Evaluates m (.block (es ++ fs)) r) ∧
      (∀ error m₁, Evaluates m (.block es) (.error error m₁) →
        ∀ r, r = .error error m₁ ↔ Evaluates m (.block (es ++ fs)) r) ∧
      ∀ r, Evaluates m (.block (es ++ fs)) r → ∃ r₁, Evaluates m (.block es) r₁) ∧
    ∀ programs : List (ℕ × Expr), (∀ p ∈ programs, p.2.NoEmptyBlock) → ∀ stack meddle,
      transcript meddle { m with stack } programs = transcript id m programs := by
  refine ⟨fun es fs hes hfs hblocks => ⟨?_, ?_, ?_⟩, fun programs hprograms stack meddle => ?_⟩
  · exact fun value m₁ hfirst => evaluates_append_of_ok hes hfs hblocks hm hfirst
  · intro error m₁ hfirst r
    have hwhole := evaluates_append_of_error hes hfs hblocks hm hfirst
    exact ⟨fun hr => hr ▸ hwhole, fun hr => hr.unique hwhole⟩
  · exact fun r hr => exists_evaluates_of_append hes hfs hblocks hm hr
  · refine transcript_congr hprograms hm ?_ id meddle
    rfl

/-- A function is called and its value declared, with a value of an earlier program on the stack.
The next program calls what was declared. In the session, a sum fails behind its first operand. -/
theorem sessions_agree_declaration :
    let body : Expr := .block [.int 1, .var "x"]
    let es : List Expr := [.declare "g" (.call (.var "f") [.func [] (.var "y")])]
    let fs : List Expr := [.call (.var "g") []]
    let programs : List (ℕ × Expr) := [(2, .binary .add (.int 1) (.var "y")), (2, .var "f")]
    let m : Machine := ⟨[.func [] (.int 2)], Scopes.empty.declare "f" (.func ["x"] body)⟩
    let m₁ : Machine := { m with scopes := m.scopes.declare "g" (.func [] (.var "y")) }
    Env.NoEmptyBlock m.scopes.resolve? ∧ (∀ e ∈ es, e.NoEmptyBlock) ∧
      (∀ p ∈ programs, p.2.NoEmptyBlock) ∧
      Evaluates m (.block es) (.ok (.func [] (.var "y")) m₁) ∧
      (∀ r, Evaluates m₁ (.block fs) r ↔ Evaluates m (.block (es ++ fs)) r) ∧
      transcript (fun _ => []) { m with stack := [] } programs = transcript id m programs := by
  intro body es fs programs m m₁
  have hbody : body.NoEmptyBlock := by
    refine .block (List.cons_ne_nil _ _) ?_
    simp only [List.forall_mem_cons]
    exact ⟨.int 1, .var "x", List.forall_mem_nil _⟩
  have hm : Env.NoEmptyBlock m.scopes.resolve? := by
    have hempty : Env.NoEmptyBlock Scopes.empty.resolve? := fun _ _ h => by cases h
    rw [Scopes.resolve?_declare]
    exact hempty.update "f" hbody
  have hes : ∀ e ∈ es, e.NoEmptyBlock :=
    List.forall_mem_singleton.mpr (.declare "g" (.call (.var "f")
      (List.forall_mem_singleton.mpr (.func [] (.var "y")))))
  have hprograms : ∀ p ∈ programs, p.2.NoEmptyBlock := by
    simp only [programs, List.forall_mem_cons]
    exact ⟨.binary .add (.int 1) (.var "y"), .var "f", List.forall_mem_nil _⟩
  have hfirst : Evaluates m (.block es) (.ok (.func [] (.var "y")) m₁) :=
    ⟨fun _ h => (by cases h), 6, rfl⟩
  obtain ⟨happend, hsession⟩ := sessions_agree hm
  have hsecond := (happend es fs (List.cons_ne_nil _ _) (List.cons_ne_nil _ _) hes).1 _ _ hfirst
  exact ⟨hm, hes, hprograms, hfirst, hsecond, hsession programs hprograms [] fun _ => []⟩

end Machine

end ArrowCalc
