import ArrowCalc.Mode
import ArrowCalc.Proofs.Composition
import ArrowCalc.Proofs.Frames
import ArrowCalc.Proofs.Preorder

/-!
# Failures because of malformed nodes

The script and the outline of a tree fail on the same trees. Both writers reach every node, from the
root down and from left to right, so the first malformed node in this order stops them, and nothing
else does.

A source gives a tree that is malformed at the root, or nowhere. In the first case evaluation fails
as the writers do. In the second case it may fail too, but never because of a malformed node: it
meets the nodes of the tree and the bodies of function values, and these bodies come from the tree.
That function values have no malformed node in them is the invariant of a run (`Machine.Faultless`).

## Main definitions

* `Value.Faultless`, `Machine.Faultless` — no function has a malformed node in its body
* `Machine.Clean` — work that keeps the invariant, and does not fail because of a malformed node

## Main results

* `Machine.clean_visit` — an expression without malformed nodes is evaluated cleanly
* `Expr.outline_eq_error`, `Expr.toJavaScript_eq_error` — how writers fail
* `Mode.faults_agree` — writers and evaluation fail alike
-/

namespace ArrowCalc

/-! ### Writers

What the writers add up to their end is known, and so is how they end (`Script.adds_write`,
`Outline.shows_write`). Only the text that comes out is looked at here. -/

namespace Expr

variable {e : Expr}

/-- A tree with a malformed node has no outline. -/
theorem outline_eq_error {message : String} (h : e.fault? = some message) :
    e.outline = .error (.malformed message) := by
  obtain ⟨added, hrun⟩ := (Outline.shows_write e).adds
  rw [outline, hrun, h]
  rfl

/-- Every other tree has one. -/
theorem outline_eq_ok (h : e.fault? = none) : ∃ text, e.outline = .ok text := by
  obtain ⟨added, hrun⟩ := (Outline.shows_write e).adds
  rw [outline, hrun, h]
  exact ⟨_, rfl⟩

/-- A tree with a malformed node has no script. -/
theorem toJavaScript_eq_error {message : String} (h : e.fault? = some message) :
    e.toJavaScript = .error (.malformed message) := by
  obtain ⟨piece, hrun⟩ := Script.adds_write false e
  rw [toJavaScript, hrun, h]
  rfl

/-- Every other tree has one. -/
theorem toJavaScript_eq_ok (h : e.fault? = none) : ∃ text, e.toJavaScript = .ok text := by
  obtain ⟨piece, hrun⟩ := Script.adds_write false e
  rw [toJavaScript, hrun, h]
  exact ⟨_, rfl⟩

end Expr

/-! ### Functions without malformed nodes

A function value keeps its body, and its body is run when the function is called, perhaps long after
the function was made. So the invariant is about all places where a value can be kept: the stack,
the frames of the calls and the global frame. -/

/-- If the value is a function, its body has no malformed node. -/
def Value.Faultless : Value → Prop
  | .num _ => True
  | .func _ body => body.fault? = none

/-- The functions in the frame have no malformed node. -/
def Frame.Faultless (f : Frame) : Prop := ∀ b ∈ f.bindings, b.2.Faultless

namespace Frame

theorem faultless_empty : empty.Faultless := List.forall_mem_nil _

theorem Faultless.insert {f : Frame} (h : f.Faultless) (name : String) {value : Value}
    (hvalue : value.Faultless) : (f.insert name value).Faultless := by
  refine List.forall_mem_cons.mpr ⟨hvalue, ?_⟩
  intro b hb
  exact h b (List.mem_filter.mp hb).1

/-- What is found in a frame was put there. -/
theorem Faultless.of_find? {f : Frame} (h : f.Faultless) {name : String} {value : Value}
    (hfind : f.find? name = some value) : value.Faultless := by
  obtain ⟨before, behind, hbindings, -⟩ := List.lookup_eq_some_iff.mp hfind
  refine h (name, value) ?_
  rw [hbindings]
  exact List.mem_append_right _ List.mem_cons_self

end Frame

/-- The functions in the scopes have no malformed node. -/
structure Scopes.Faultless (s : Scopes) : Prop where
  locals : ∀ f ∈ s.locals, f.Faultless
  globals : s.globals.Faultless

namespace Scopes

variable {s : Scopes}

theorem Faultless.push (h : s.Faultless) {f : Frame} (hf : f.Faultless) : (s.push f).Faultless :=
  ⟨List.forall_mem_cons.mpr ⟨hf, h.locals⟩, h.globals⟩

theorem Faultless.pop (h : s.Faultless) : s.pop.Faultless :=
  ⟨fun f hf => h.locals f (List.mem_of_mem_tail hf), h.globals⟩

theorem Faultless.declare (h : s.Faultless) (name : String) {value : Value}
    (hvalue : value.Faultless) : (s.declare name value).Faultless := by
  obtain ⟨_ | ⟨f, locals⟩, globals⟩ := s
  · exact ⟨h.locals, h.globals.insert name hvalue⟩
  · obtain ⟨hf, hlocals⟩ := List.forall_mem_cons.mp h.locals
    exact ⟨List.forall_mem_cons.mpr ⟨hf.insert name hvalue, hlocals⟩, h.globals⟩

theorem Faultless.of_resolve? (h : s.Faultless) {name : String} {value : Value}
    (hresolve : s.resolve? name = some value) : value.Faultless := by
  obtain ⟨f, hf, hfind⟩ := List.exists_of_findSome?_eq_some hresolve
  rcases List.mem_append.mp hf with hlocal | hglobal
  · exact (h.locals f hlocal).of_find? hfind
  · rw [List.mem_singleton.mp hglobal] at hfind
    exact h.globals.of_find? hfind

end Scopes

namespace Machine

/-- The functions on the stack and in the scopes have no malformed node. -/
structure Faultless (m : Machine) : Prop where
  stack : ∀ v ∈ m.stack, v.Faultless
  scopes : m.scopes.Faultless

theorem faultless_start : start.Faultless :=
  ⟨List.forall_mem_nil _, List.forall_mem_nil _, Frame.faultless_empty⟩

/-! ### Clean work

`Clean Q w` says of one piece of work that it keeps the invariant and what it returns has `Q`. The
invariant has to hold after a failure as well: the frame of a call is removed then too. -/

section Clean

variable {α β : Type} {Q : α → Prop} {R : β → Prop}

/-- A run has returned something with `Q`, or has failed, but not because of a malformed node. -/
inductive EndsCleanly (Q : α → Prop) : EStateM.Result Error Machine α → Prop where
  | ok {a : α} {m : Machine} (ha : Q a) (hm : m.Faultless) : EndsCleanly Q (.ok a m)
  | error {e : Error} {m : Machine} (he : ∀ message, e ≠ .malformed message)
      (hm : m.Faultless) : EndsCleanly Q (.error e m)

/-- The work ends cleanly wherever the functions have no malformed node. -/
def Clean (Q : α → Prop) (w : Work α) : Prop := ∀ m, m.Faultless → EndsCleanly Q (w m)

/-- Clean work in sequence is clean. -/
theorem Clean.bind {w : Work α} {f : α → Work β} (h : Clean Q w) (hf : ∀ a, Q a → Clean R (f a)) :
    Clean R (w >>= f) := by
  intro m hm
  have hrun := h m hm
  generalize hw : w m = r at hrun
  cases hrun with
  | ok ha hm' =>
    rw [bind_of_ok hw]
    exact hf _ ha _ hm'
  | error he hm' =>
    rw [bind_of_error hw]
    exact .error he hm'

theorem clean_pure {a : α} (ha : Q a) : Clean Q (pure a : Work α) := fun _ hm => .ok ha hm

theorem clean_throw {e : Error} (he : ∀ message, e ≠ .malformed message) :
    Clean Q (throw e : Work α) := fun _ hm => .error he hm

theorem clean_fail (e : RuntimeError) : Clean Q (fail e : Work α) := by
  refine clean_throw ?_
  intro message h
  cases h

end Clean

/-- Nothing is asked of the result. -/
def Any (_ : Unit) : Prop := True

theorem clean_push {value : Value} (h : value.Faultless) : Clean Any (push value) :=
  fun _ hm => .ok trivial ⟨List.forall_mem_cons.mpr ⟨h, hm.stack⟩, hm.scopes⟩

theorem clean_pop (operation : Operation) : Clean Value.Faultless (pop operation) := by
  rintro ⟨stack, scopes⟩ hm
  cases stack with
  | nil =>
    refine .error ?_ hm
    intro message h
    cases h
  | cons value stack =>
    obtain ⟨hvalue, hstack⟩ := List.forall_mem_cons.mp hm.stack
    exact .ok hvalue ⟨hstack, hm.scopes⟩

theorem clean_declare (name : String) {value : Value} (h : value.Faultless) :
    Clean Any (modify fun m => { m with scopes := m.scopes.declare name value }) :=
  fun _ hm => .ok trivial ⟨hm.stack, hm.scopes.declare name h⟩

/-- The operators give numbers, if anything. -/
theorem clean_applyBinary (op : BinaryOp) (a b : Value) :
    Clean Any (pushResult (applyBinary op a b)) := by
  cases a <;> cases b
  · exact clean_push trivial
  all_goals exact clean_fail _

theorem clean_applyUnary (op : UnaryOp) (a : Value) : Clean Any (pushResult (applyUnary op a)) := by
  cases a with
  | num value => cases op <;> exact clean_push trivial
  | func params body => cases op <;> exact clean_fail _

/-- The frame of a call is taken away at either end of the body, and the other scopes stay. -/
theorem Clean.inFrame {body : Work Unit} (h : Clean Any body) {frame : Frame}
    (hframe : frame.Faultless) : Clean Any (inFrame frame body) := by
  intro m hm
  have hrun := h { m with scopes := m.scopes.push frame } ⟨hm.stack, hm.scopes.push hframe⟩
  rw [Machine.inFrame]
  generalize body { m with scopes := m.scopes.push frame } = r at hrun
  cases hrun with
  | ok _ hm' => exact .ok trivial ⟨hm'.stack, hm'.scopes.pop⟩
  | error he hm' => exact .error he ⟨hm'.stack, hm'.scopes.pop⟩

/-! ### Evaluation

One level of the machine is clean if what it visits is. The limit on the depth is then taken care of
by induction. -/

section Level

variable {visit : Expr → Work Unit} (hvisit : ∀ e, e.fault? = none → Clean Any (visit e))

include hvisit

theorem clean_visitBlock {es : List Expr} (hes : ∀ e ∈ es, e.fault? = none) :
    Clean Any (visitBlock visit es) := by
  induction es with
  | nil => exact clean_pure trivial
  | cons e es ih =>
    obtain ⟨he, hes⟩ := List.forall_mem_cons.mp hes
    cases es with
    | nil => exact hvisit e he
    | cons e' es =>
      exact (hvisit e he).bind fun _ _ => (clean_pop .block).bind fun _ _ => ih hes

theorem clean_bindArgs {bindings : List (String × Expr)} (h : ∀ b ∈ bindings, b.2.fault? = none)
    {frame : Frame} (hframe : frame.Faultless) :
    Clean Frame.Faultless (bindArgs visit bindings frame) := by
  induction bindings generalizing frame with
  | nil => exact clean_pure hframe
  | cons b bindings ih =>
    obtain ⟨hb, hbindings⟩ := List.forall_mem_cons.mp h
    exact (hvisit b.2 hb).bind fun _ _ => (clean_pop .call).bind fun value hvalue =>
      ih hbindings (hframe.insert b.1 hvalue)

/-- The frame of a call and the body that is entered have no malformed node. -/
theorem clean_operands {callee : Expr} {args : List Expr} (hcallee : callee.fault? = none)
    (hargs : ∀ e ∈ args, e.fault? = none) :
    Clean (fun entry => entry.1.Faultless ∧ entry.2.fault? = none)
      (operands visit callee args) := by
  refine (hvisit callee hcallee).bind fun _ _ => (clean_pop .call).bind fun value hvalue => ?_
  cases value with
  | num a => exact clean_fail _
  | func params body =>
    by_cases harity : params.length = args.length
    · simp only [if_pos harity]
      have hbindings : ∀ b ∈ params.zip args, b.2.fault? = none := by
        intro b hb
        exact hargs b.2 (List.of_mem_zip hb).2
      exact (clean_bindArgs hvisit hbindings Frame.faultless_empty).bind fun frame hframe =>
        clean_pure ⟨hframe, hvalue⟩
    · simp only [if_neg harity]
      exact clean_fail _

/-- One level of an evaluation is clean if what is nested is. -/
theorem clean_level {e : Expr} (h : e.fault? = none) : Clean Any (level inFrame visit e) := by
  rw [Expr.fault?_eq, Option.or_eq_none_iff, Expr.faultOfEach?_eq_none_iff] at h
  obtain ⟨hroot, hchildren⟩ := h
  cases e with
  | malformed message => cases hroot
  | block statements => exact clean_visitBlock hvisit hchildren
  | int value => exact clean_push trivial
  | binary op left right =>
    refine (hvisit left (hchildren _ (by simp [Expr.children]))).bind fun _ _ => ?_
    refine (hvisit right (hchildren _ (by simp [Expr.children]))).bind fun _ _ => ?_
    exact (clean_pop .binary).bind fun b _ => (clean_pop .binary).bind fun a _ =>
      clean_applyBinary op a b
  | unary op operand =>
    refine (hvisit operand (hchildren _ (by simp [Expr.children]))).bind fun _ _ => ?_
    exact (clean_pop .unary).bind fun a _ => clean_applyUnary op a
  | paren inner => exact hvisit inner (hchildren _ (by simp [Expr.children]))
  | declare name value =>
    refine (hvisit value (hchildren _ (by simp [Expr.children]))).bind fun _ _ => ?_
    exact (clean_pop .declare).bind fun a ha =>
      (clean_declare name ha).bind fun _ _ => clean_push ha
  | var name =>
    intro m hm
    have hget : (get : Work Machine) m = .ok m m := rfl
    rw [level, bind_of_ok hget]
    cases hresolve : m.scopes.resolve? name with
    | some value => exact clean_push (hm.scopes.of_resolve? hresolve) m hm
    | none => exact clean_fail _ m hm
  -- a function comes into being here, and its body is a part of the tree
  | func params body => exact clean_push (hchildren _ (by simp [Expr.children]))
  | call callee args =>
    obtain ⟨hcallee, hargs⟩ := List.forall_mem_cons.mp hchildren
    exact (clean_operands hvisit hcallee hargs).bind fun entry hentry =>
      (hvisit entry.2 hentry.2).inFrame hentry.1

end Level

/-- An expression without malformed nodes is evaluated cleanly, within every limit. -/
theorem clean_visit (depth : ℕ) {e : Expr} (h : e.fault? = none) : Clean Any (visit depth e) := by
  induction depth generalizing e with
  | zero =>
    refine clean_throw ?_
    intro message h
    cases h
  | succ depth ih =>
    rw [visit_succ]
    exact clean_level (fun e he => ih he) h

theorem clean_eval (depth : ℕ) {e : Expr} (h : e.fault? = none) :
    Clean Value.Faultless (eval depth e) :=
  (clean_visit depth h).bind fun _ _ => clean_pop .result

end Machine

namespace Expr

/-- The evaluation of a tree without malformed nodes never fails because of one. -/
theorem evaluate_ne_malformed {e : Expr} (h : e.fault? = none) (depth : ℕ) (message : String) :
    e.evaluate depth ≠ .error (.malformed message) := by
  have hrun := Machine.clean_eval depth h .start Machine.faultless_start
  rw [evaluate]
  generalize Machine.eval depth e .start = r at hrun
  intro heq
  cases hrun with
  | ok => cases heq
  | error he =>
    injection heq with herror
    exact he message herror

/-- The tree of a source is malformed at the root or nowhere. -/
theorem parse_malformed_or_fault?_eq_none (source : String) :
    (∃ message, parse source = .malformed message) ∨ (parse source).fault? = none := by
  rcases TokenStream.readProgram_cases (TokenStream.ofSource source).marked with
    ⟨es, -, hes⟩ | ⟨message, hmessage⟩
  · right
    have hparse : parse source = .block es := hes
    rw [hparse, fault?]
    exact (faultOfEach?_of_parse hparse).2
  · exact .inl ⟨message, hmessage⟩

end Expr

namespace Mode

/-- A writer that fails exactly on the trees with a fault fails on a source exactly if its tree is
malformed at the root. -/
theorem exists_error_iff {write : Expr → Except Error String}
    (hok : ∀ e : Expr, e.fault? = none → ∃ text, write e = .ok text)
    (herror : ∀ (e : Expr) message, e.fault? = some message → write e = .error (.malformed message))
    (source : String) : (∃ error, write (Expr.parse source) = .error error) ↔
      ∃ message, Expr.parse source = .malformed message := by
  constructor
  · rintro ⟨error, hfails⟩
    refine (Expr.parse_malformed_or_fault?_eq_none source).resolve_right fun hfault => ?_
    obtain ⟨text, htext⟩ := hok _ hfault
    rw [htext] at hfails
    cases hfails
  · rintro ⟨message, hmessage⟩
    exact ⟨_, herror _ message (by rw [hmessage, Expr.fault?])⟩

/-- **Faults.** The outline and the script of a tree without malformed nodes can be written. Of any
other tree neither can, and both fail with the message of the first malformed node. So a source has
an outline and a script unless its tree is malformed at the root, and then all modes but the listing
fail with its message. Evaluation fails because of a malformed node in no other case. -/
theorem faults_agree :
    (∀ e : Expr, (∀ message, .malformed message ∉ e.preorder) →
      (∃ text, e.outline = .ok text) ∧ ∃ text, e.toJavaScript = .ok text) ∧
    (∀ (e : Expr) (before behind : List Expr) (message : String),
      e.preorder = before ++ .malformed message :: behind → (∀ m, .malformed m ∉ before) →
      e.outline = .error (.malformed message) ∧
        e.toJavaScript = .error (.malformed message)) ∧
    (∀ (source : String) (depth : ℕ),
      ((∃ error, run depth ast source = .error error) ↔
        ∃ message, Expr.parse source = .malformed message) ∧
      ((∃ error, run depth compile source = .error error) ↔
        ∃ message, Expr.parse source = .malformed message) ∧
      ∀ message, Expr.parse source = .malformed message →
        run depth ast source = .error (.malformed message) ∧
        run depth compile source = .error (.malformed message) ∧
        run (depth + 1) eval source = .error (.malformed message)) ∧
    ∀ (source : String) (depth : ℕ) (message : String),
      run depth eval source = .error (.malformed message) →
        Expr.parse source = .malformed message := by
  refine ⟨fun e he => ?_, fun e before behind message hnodes hbefore => ?_,
    fun source depth => ⟨?_, ?_, fun message hparse => ?_⟩,
    fun source depth message hrun => ?_⟩
  · have hfault := Expr.fault?_eq_none_iff.mpr he
    exact ⟨Expr.outline_eq_ok hfault, Expr.toJavaScript_eq_ok hfault⟩
  · have hfault := Expr.fault?_eq_some_of_preorder hnodes hbefore
    exact ⟨Expr.outline_eq_error hfault, Expr.toJavaScript_eq_error hfault⟩
  · exact exists_error_iff (fun _ => Expr.outline_eq_ok) (fun _ _ => Expr.outline_eq_error) source
  · exact exists_error_iff (fun _ => Expr.toJavaScript_eq_ok)
      (fun _ _ => Expr.toJavaScript_eq_error) source
  · simp only [run, hparse]
    exact ⟨rfl, rfl, rfl⟩
  · rcases Expr.parse_malformed_or_fault?_eq_none source with ⟨message', hparse⟩ | hfault
    · cases depth with
      | zero => cases hrun
      | succ depth =>
        simp only [run, hparse] at hrun
        cases hrun
        exact hparse
    · exact absurd hrun (Expr.evaluate_ne_malformed hfault depth message)

/-- The empty source is no program. -/
theorem exists_parse_empty_eq : ∃ message, Expr.parse "" = .malformed message := by
  have htokens : (TokenStream.ofSource "").tokens = [] := by
    show (readings .start (Lexeme.cut [])).map Reading.token = []
    rw [Lexeme.cut]
    rfl
  rcases TokenStream.readProgram_cases (TokenStream.ofSource "").marked with
    ⟨es, -, hes⟩ | hmalformed
  · have hprogram := (Expr.parse_eq_block_iff "" es).mp hes
    rw [htokens] at hprogram
    generalize hts : [] = ts at hprogram
    cases hprogram with
    | last h | cons h =>
      obtain ⟨t, us, rfl, -⟩ := h.exists_first
      cases hts
  · exact hmalformed

/-- The first of three malformed nodes stands in parentheses that the script leaves out. The tree of
the empty source is malformed at the root. -/
theorem faults_agree_operand :
    let power : Expr := .binary .pow (.paren (.malformed "a")) (.malformed "b")
    let e : Expr := .call (.var "f") [power, .malformed "c"]
    (e.preorder = [e, .var "f", power, .paren (.malformed "a")] ++
        .malformed "a" :: [.malformed "b", .malformed "c"] ∧
      e.outline = .error (.malformed "a") ∧ e.toJavaScript = .error (.malformed "a")) ∧
      ∃ message, Expr.parse "" = .malformed message ∧
        run 0 compile "" = .error (.malformed message) ∧
        run 1 eval "" = .error (.malformed message) := by
  intro power e
  have hnodes : e.preorder = [e, .var "f", power, .paren (.malformed "a")] ++
      .malformed "a" :: [.malformed "b", .malformed "c"] := rfl
  have hbefore : ∀ m, .malformed m ∉ [e, .var "f", power, .paren (.malformed "a")] := by
    intro m
    simp [e, power]
  obtain ⟨message, hparse⟩ := exists_parse_empty_eq
  obtain ⟨-, hfirst, hsource, -⟩ := faults_agree
  obtain ⟨-, hcompile, heval⟩ := (hsource "" 0).2.2 message hparse
  exact ⟨⟨hnodes, hfirst e _ _ "a" hnodes hbefore⟩, message, hparse, hcompile, heval⟩

end Mode

end ArrowCalc
