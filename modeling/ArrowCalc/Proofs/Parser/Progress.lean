import ArrowCalc.Proofs.Parser.Resumption

/-!
# Progress of the parser

The productions call each other in a circle, and the loops go on as long as they find something. So
it takes an argument that a reading ends.

## What it means to return

That the productions are defined at all says that they end, but it says so by a measure inside of
their definition and gives no bound. Here the argument is made about the calls themselves: `body` is
what a production does if it is told what its calls return, and `unrolled k` answers the calls to a
depth of `k`, after which nothing is returned. A production returns if this does not matter from
some depth on. The number of calls is counted on the way, and it is a depth from which on nothing is
missing, since no call is deeper than there are calls.

That `unrolled` is the parser is not assumed: `Returns` says that its verdict is the verdict of the
production. A mistake in `body` would make the theorem false.

## Who pays

Every call is paid for by tokens. A token pays for ten calls, and a production that succeeds leaves
some of that to its caller (`Call.surplus`): a primary expression needs one call, an application
around it one more, and so on up to a whole list of statements, which still has to have consumed a
token. The loops and lists that may be empty are paid for by their callers. A production that fails
may be in debt, but only by its height above the primary expressions (`Call.level`), which is also
the reason why the productions do not run in a circle.

## Main definitions

* `Parser.Call` — the productions and loops of the parser
* `Parser.unrolled` — the parser to a given depth of calls, with the number of its calls
* `Parser.Returns` — a reading returns, within what its tokens pay for

## Main results

* `Parser.Returns.andThen` — readings in sequence
* `Parser.returns_call` — every production returns
* `TokenStream.productions_progress` — the productions return, consume tokens, and stop at the end
  of the input
-/

namespace ArrowCalc

namespace Parser

open Grammar

variable {α β : Type}

/-! ### Runs

A run is a verdict that may not be known, with the number of calls that were made for it. -/

/-- What is known about a reading: nothing, or the number of its calls and its verdict. -/
abbrev Run (α : Type) := Option (ℕ × Verdict α)

namespace Run

/-- A verdict without any call. -/
def free (v : Verdict α) : Run α := some (0, v)

/-- A value in front of the tokens. -/
def done (a : α) (ts : List Token) : Run α := free (.ok (a, ts))

/-- Goes on behind a value. -/
def andThen (r : Run α) (next : α → List Token → Run β) : Run β :=
  match r with
  | none => none
  | some (n, .error e) => some (n, .error e)
  | some (n, .ok (a, rest)) =>
    match next a rest with
    | none => none
    | some (m, v) => some (n + m, v)

/-- Changes the value. -/
def map (f : α → β) (r : Run α) : Run β := r.andThen fun a rest => done (f a) rest

/-- One more call. -/
def counted (r : Run α) : Run α :=
  match r with
  | none => none
  | some (n, v) => some (n + 1, v)

end Run

/-! ### Calls -/

/-- The productions of the parser, each with what it returns. The lists and the loops that go on
behind something else are calls too. -/
inductive Call : Type → Type where
  | statements : Call (List Expr)
  | moreStatements : Call (List Expr)
  | statement : Call Expr
  | function : Call Expr
  | params : Call (List String)
  | moreParams : Call (List String)
  | declaration : Call Expr
  | operation (least : ℕ) : Call Expr
  | operators (least : ℕ) (left : Expr) : Call Expr
  | unary : Call Expr
  | power : Call Expr
  | application : Call Expr
  | arguments : Call (List Expr)
  | moreArguments : Call (List Expr)
  | primary : Call Expr

namespace Call

/-- The lists and loops that may succeed without a token. -/
def mayBeEmpty : Call α → Bool
  | moreStatements | params | moreParams | operators _ _ | arguments | moreArguments => true
  | _ => false

/-- The height of a call above those that it makes before it has consumed a token. A call makes only
calls of a smaller level on its own tokens, and with ten for each token this is the measure of the
induction. -/
def level : Call α → ℕ
  | statements | arguments => 7
  | statement => 6
  | operation _ | function | declaration => 5
  | unary => 4
  | power => 3
  | application => 2
  | primary | params => 1
  | moreStatements | moreParams | operators _ _ | moreArguments => 0

/-- What a success may cost besides ten calls for each token. For a production it is negative: part
of what its tokens pay is left for the calls around it, one for each layer, and what is left at the
top shows that a token was consumed. -/
def surplus : Call α → ℤ
  | statements => -1
  | statement => -3
  | operation _ | function | declaration => -4
  | unary => -6
  | power => -7
  | application => -8
  | primary => -9
  | moreStatements | params | moreParams | operators _ _ | arguments | moreArguments => 1

variable (eof : Span)

/-- What a call makes of the tokens. -/
def verdict : Call α → List Token → Verdict α
  | statements, ts => Parser.statements eof ts
  | moreStatements, ts => (Parser.moreStatements eof ts).verdict
  | statement, ts => (Parser.statement eof ts).verdict
  | function, ts =>
    (expect eof .func ts).verdict.andThen fun _ ts =>
      (expect eof .lparen ts).verdict.andThen fun _ ts =>
        (Parser.params eof ts).verdict.andThen fun names ts =>
          (expect eof .rparen ts).verdict.andThen fun _ ts =>
            (expect eof .arrow ts).verdict.andThen fun _ ts =>
              (Parser.statement eof ts).verdict.map (.func names)
  | params, ts => (Parser.params eof ts).verdict
  | moreParams, ts => (Parser.moreParams eof ts).verdict
  | declaration, ts =>
    (expect eof .kwLet ts).verdict.andThen fun _ ts =>
      (identifier eof ts).verdict.andThen fun name ts =>
        (expect eof .assign ts).verdict.andThen fun _ ts =>
          (Parser.statement eof ts).verdict.map (.declare name)
  | operation least, ts => (Parser.operation eof least ts).verdict
  | operators least left, ts => (Parser.operators eof least left ts).verdict
  | unary, ts => (Parser.unary eof ts).verdict
  | power, ts => (Parser.power eof ts).verdict
  | application, ts => (Parser.application eof ts).verdict
  | arguments, ts => (Parser.arguments eof ts).verdict
  | moreArguments, ts => (Parser.moreArguments eof ts).verdict
  | primary, ts => (Parser.primary eof ts).verdict

end Call

/-- What each call does, if `call` tells what the calls return that it makes. The cases are the
productions of the parser, with the reading of a single token as the only thing that is no call. -/
def body (eof : Span) (call : {α : Type} → Call α → List Token → Run α) {α : Type} :
    Call α → List Token → Run α
  | .statements, ts =>
    (call .statement ts).andThen fun first ts => (call .moreStatements ts).map (first :: ·)
  | .moreStatements, ts =>
    if peek ts = .newline then
      if peek ts.tail = .newline then call .moreStatements ts.tail
      else if peek ts.tail = .eof then .done [] ts.tail
      else
        (call .statement ts.tail).andThen fun e ts => (call .moreStatements ts).map (e :: ·)
    else .done [] ts
  | .statement, ts =>
    if peek ts = .func then call .function ts
    else if peek ts = .kwLet then call .declaration ts
    else call (.operation 0) ts
  | .function, ts =>
    (Run.free (expect eof .func ts).verdict).andThen fun _ ts =>
      (Run.free (expect eof .lparen ts).verdict).andThen fun _ ts =>
        (call .params ts).andThen fun names ts =>
          (Run.free (expect eof .rparen ts).verdict).andThen fun _ ts =>
            (Run.free (expect eof .arrow ts).verdict).andThen fun _ ts =>
              (call .statement ts).map (.func names)
  | .params, ts =>
    if peek ts = .ident then
      (Run.free (identifier eof ts).verdict).andThen fun name ts =>
        (call .moreParams ts).map (name :: ·)
    else .done [] ts
  | .moreParams, ts =>
    if peek ts = .comma then
      (Run.free (identifier eof ts.tail).verdict).andThen fun name ts =>
        (call .moreParams ts).map (name :: ·)
    else .done [] ts
  | .declaration, ts =>
    (Run.free (expect eof .kwLet ts).verdict).andThen fun _ ts =>
      (Run.free (identifier eof ts).verdict).andThen fun name ts =>
        (Run.free (expect eof .assign ts).verdict).andThen fun _ ts =>
          (call .statement ts).map (.declare name)
  | .operation least, ts =>
    (call .unary ts).andThen fun left ts => call (.operators least left) ts
  | .operators least left, ts =>
    match (peek ts).bindingPower?, BinaryOp.ofToken? (peek ts) with
    | some (l, r), some op =>
      if l < least then .done left ts
      else
        (call (.operation r) ts.tail).andThen fun right ts =>
          call (.operators least (.binary op left right)) ts
    | _, _ => .done left ts
  | .unary, ts =>
    match sign? (peek ts) with
    | some op => (call .unary ts.tail).map (.unary op)
    | none => call .power ts
  | .power, ts =>
    (call .application ts).andThen fun base ts =>
      if peek ts = .power then (call .unary ts.tail).map (.binary .pow base) else .done base ts
  | .application, ts =>
    (call .primary ts).andThen fun callee ts =>
      if peek ts = .lparen then
        (call .arguments ts.tail).andThen fun args ts =>
          (Run.free (expect eof .rparen ts).verdict).map fun _ => .call callee args
      else .done callee ts
  | .arguments, ts =>
    if peek ts = .rparen then .done [] ts
    else (call .statement ts).andThen fun arg ts => (call .moreArguments ts).map (arg :: ·)
  | .moreArguments, ts =>
    if peek ts = .comma then
      (call .statement ts.tail).andThen fun arg ts => (call .moreArguments ts).map (arg :: ·)
    else .done [] ts
  | .primary, ts =>
    if peek ts = .ident then (Run.free (identifier eof ts).verdict).map .var
    else if peek ts = .int then (Run.free (expectPayload eof .int Token.int? ts).verdict).map .int
    else
      (Run.free (expect eof .lparen ts).verdict).andThen fun _ ts =>
        (call .statement ts).andThen fun inner ts =>
          (Run.free (expect eof .rparen ts).verdict).map fun _ => .paren inner

/-- The parser to a depth of `k` calls. Nothing is known about what is deeper. -/
def unrolled (eof : Span) : ℕ → {α : Type} → Call α → List Token → Run α
  | 0, _, _, _ => none
  | k + 1, _, c, ts => (body eof (unrolled eof k) c ts).counted

/-! ### Readings that return

The rules for sequences, decisions and single tokens, each with what it does to the two allowances.
In a sequence the second reading has what the first one left, and the first one may not fail more
expensively than the whole. -/

namespace Verdict

/-- The tokens that were not consumed. -/
def remaining : Verdict α → List Token
  | .ok (_, rest) => rest
  | .error (_, rest) => rest

/-- What a reading with this verdict may cost besides ten calls for each token. -/
def allowance (s f : ℤ) : Verdict α → ℤ
  | .ok _ => s
  | .error _ => f

theorem allowance_add (s f k : ℤ) (v : Verdict α) :
    allowance (s + k) (f + k) v = allowance s f v + k := by
  cases v <;> rfl

theorem allowance_mono {s f s' f' : ℤ} (hs : s ≤ s') (hf : f ≤ f') (v : Verdict α) :
    allowance s f v ≤ allowance s' f' v := by
  cases v with
  | ok _ => exact hs
  | error _ => exact hf

end Verdict

/-- A reading that returns the verdict `v` from some depth on, namely from the number of its calls
on. It consumes a piece without an end of the input. The calls are paid for by the tokens of the
piece, up to `s` if it succeeds and up to `f` if it fails. -/
def Returns (p : ℕ → Run α) (v : Verdict α) (ts : List Token) (s f : ℤ) : Prop :=
  ∃ (piece : List Token) (n : ℕ), ts = piece ++ v.remaining ∧ (∀ t ∈ piece, t.kind ≠ .eof) ∧
    (∀ k, n ≤ k → p k = some (n, v)) ∧ (n : ℤ) ≤ 10 * piece.length + v.allowance s f

theorem Returns.mono {p : ℕ → Run α} {v : Verdict α} {ts : List Token} {s f s' f' : ℤ}
    (h : Returns p v ts s f) (hs : s ≤ s') (hf : f ≤ f') : Returns p v ts s' f' := by
  obtain ⟨piece, n, hts, hpiece, hrun, hn⟩ := h
  have hallowance := v.allowance_mono hs hf
  exact ⟨piece, n, hts, hpiece, hrun, by omega⟩

/-- One reading after another, which has what is left. The second reading is told that the first one
consumed tokens, in the form of the bound that the induction needs. -/
theorem Returns.andThen {p : ℕ → Run α} {v : Verdict α} {q : ℕ → α → List Token → Run β}
    {w : α → List Token → Verdict β} {ts : List Token} {s f s' f' : ℤ} (hp : Returns p v ts s f)
    (hq : ∀ a rest, v = .ok (a, rest) → (10 * rest.length : ℤ) ≤ 10 * ts.length + s →
      Returns (fun k => q k a rest) (w a rest) rest (s' - s) (f' - s)) (hf : f ≤ f') :
    Returns (fun k => (p k).andThen (q k)) (v.andThen w) ts s' f' := by
  obtain ⟨piece, n, hts, hpiece, hrun, hn⟩ := hp
  rcases v with ⟨e, rest⟩ | ⟨a, rest⟩
  · refine ⟨piece, n, hts, hpiece, fun k hk => ?_, Int.le_trans hn (Int.add_le_add_left hf _)⟩
    simp only [hrun k hk]
    rfl
  · have hvalue : (n : ℤ) ≤ 10 * piece.length + s := hn
    have hlength : (10 * rest.length : ℤ) ≤ 10 * ts.length + s := by
      rw [hts, List.length_append, Verdict.remaining]
      omega
    -- both pieces are consumed, and both numbers of calls are counted
    obtain ⟨piece', m, hrest, hpiece', hrun', hm⟩ := hq a rest rfl hlength
    have hallowance : (w a rest).allowance (s' - s) (f' - s) = (w a rest).allowance s' f' - s :=
      (w a rest).allowance_add s' f' (-s)
    refine ⟨piece ++ piece', n + m, ?_, ?_, fun k hk => ?_, ?_⟩
    · rw [hts, List.append_assoc]
      exact congrArg (piece ++ ·) hrest
    · exact fun t ht => (List.mem_append.mp ht).elim (hpiece t) (hpiece' t)
    · simp only [hrun k (by omega), Run.andThen, hrun' k (by omega), Verdict.andThen_ok]
    · rw [List.length_append, Verdict.andThen_ok]
      omega

theorem returns_done (a : α) (ts : List Token) {s f : ℤ} (hs : 0 ≤ s) :
    Returns (fun _ => Run.done a ts) (.ok (a, ts)) ts s f :=
  ⟨[], 0, rfl, fun _ h => absurd h List.not_mem_nil, fun _ _ => rfl,
    by simpa [Verdict.allowance] using hs⟩

theorem Returns.map {p : ℕ → Run α} {v : Verdict α} {ts : List Token} {s f : ℤ}
    (hp : Returns p v ts s f) (g : α → β) : Returns (fun k => (p k).map g) (v.map g) ts s f :=
  hp.andThen (fun a rest _ _ => returns_done (g a) rest (by omega)) (Int.le_refl f)

/-- Behind a token that was looked at. The token pays for ten calls. -/
theorem Returns.cons {p : ℕ → Run α} {v : Verdict α} {t : Token} {ts : List Token} {s f : ℤ}
    (h : Returns p v ts (s + 10) (f + 10)) (ht : t.kind ≠ .eof) : Returns p v (t :: ts) s f := by
  obtain ⟨piece, n, hts, hpiece, hrun, hn⟩ := h
  rw [Verdict.allowance_add] at hn
  refine ⟨t :: piece, n, congrArg (t :: ·) hts, List.forall_mem_cons.mpr ⟨ht, hpiece⟩, hrun, ?_⟩
  rw [List.length_cons]
  omega

/-- Behind a token whose kind was looked at. -/
theorem Returns.tail {p : ℕ → Run α} {v : Verdict α} {ts : List Token} {kind : TokenKind} {s f : ℤ}
    (hpeek : peek ts = kind) (hkind : kind ≠ .eof)
    (h : ts.tail.length + 1 = ts.length → Returns p v ts.tail (s + 10) (f + 10)) :
    Returns p v ts s f := by
  cases ts with
  | nil => exact absurd hpeek.symm hkind
  | cons t ts =>
    have ht : t.kind = kind := hpeek
    exact (h rfl).cons (ht ▸ hkind)

variable {eof : Span}

/-- A call is counted, and takes one from both allowances. -/
theorem Returns.counted {c : Call α} {v : Verdict α} {ts : List Token} {s f : ℤ}
    (h : Returns (fun k => body eof (unrolled eof k) c ts) v ts (s - 1) (f - 1)) :
    Returns (fun k => unrolled eof k c ts) v ts s f := by
  obtain ⟨piece, n, hts, hpiece, hrun, hn⟩ := h
  have hallowance : v.allowance (s - 1) (f - 1) = v.allowance s f - 1 := v.allowance_add s f (-1)
  refine ⟨piece, n + 1, hts, hpiece, fun k hk => ?_, by omega⟩
  obtain ⟨k, rfl⟩ : ∃ k', k = k' + 1 := ⟨k - 1, by omega⟩
  simp only [unrolled, hrun k (by omega)]
  rfl

/-! ### Single tokens -/

theorem returns_failed (e : SyntaxError) (ts : List Token) {s f : ℤ} (hf : 0 ≤ f) :
    Returns (fun _ => Run.free (.error (e, ts) : Verdict α)) (.error (e, ts)) ts s f :=
  ⟨[], 0, rfl, fun _ h => absurd h List.not_mem_nil, fun _ _ => rfl,
    by simpa [Verdict.allowance] using hf⟩

/-- A token that is found pays for ten calls and needs none. One that is not found costs nothing. -/
theorem returns_expect {wanted : TokenKind} (hw : wanted ≠ .eof) (ts : List Token) :
    Returns (fun _ => Run.free (expect eof wanted ts).verdict) (expect eof wanted ts).verdict ts
      (-10) 0 := by
  by_cases hpeek : peek ts = wanted
  · cases ts with
    | nil => exact absurd hpeek.symm hw
    | cons t ts =>
      have ht : t.kind = wanted := hpeek
      rw [verdict_expect_of_kind eof ht]
      exact (returns_done t ts (by omega)).cons (ht ▸ hw)
  · rw [verdict_expect_of_ne eof hpeek]
    exact returns_failed _ ts (by omega)

/-- A token without its payload is consumed too. -/
theorem returns_expectPayload {wanted : TokenKind} (hw : wanted ≠ .eof) (get? : Token → Option α)
    (ts : List Token) :
    Returns (fun _ => Run.free (expectPayload eof wanted get? ts).verdict)
      (expectPayload eof wanted get? ts).verdict ts (-10) 0 := by
  rw [verdict_expectPayload]
  by_cases hpeek : peek ts = wanted
  · cases ts with
    | nil => exact absurd hpeek.symm hw
    | cons t ts =>
      have ht : t.kind = wanted := hpeek
      rw [verdict_expect_of_kind eof ht, Verdict.andThen_ok]
      cases get? t with
      | some a => exact (returns_done a ts (by omega)).cons (ht ▸ hw)
      | none => exact (returns_failed _ ts (by omega)).cons (ht ▸ hw)
  · rw [verdict_expect_of_ne eof hpeek]
    exact returns_failed _ ts (by omega)

theorem returns_identifier (ts : List Token) :
    Returns (fun _ => Run.free (identifier eof ts).verdict) (identifier eof ts).verdict ts
      (-10) 0 :=
  returns_expectPayload (by decide) _ ts

/-! ### Expressions

One lemma for each call. All of them have the same shape. The call is counted, its body is compared
with the equation of its verdict, and the readings in the body return by the induction hypothesis;
what is left are inequalities between numbers. -/

variable (eof) in
/-- The calls whose tokens and level are below `m` return. -/
def ReturnsBelow (m : ℕ) : Prop :=
  ∀ {α : Type} (c : Call α) (ts : List Token), 10 * ts.length + c.level < m →
    Returns (fun k => unrolled eof k c ts) (c.verdict eof ts) ts c.surplus c.level

variable {m : ℕ} {ts : List Token} (hm : ReturnsBelow eof m)

include hm

/-- The induction hypothesis for a call whose allowances are given as numbers. -/
theorem ReturnsBelow.call (c : Call α) {s f : ℤ} (hs : c.surplus = s) (hf : c.level = f)
    (h : 10 * ts.length + f < m) :
    Returns (fun k => unrolled eof k c ts) (c.verdict eof ts) ts s f :=
  hs ▸ hf ▸ hm c ts (by omega)

theorem ReturnsBelow.statement (h : 10 * ts.length + 6 < m) :
    Returns (fun k => unrolled eof k .statement ts) (Parser.statement eof ts).verdict ts (-3) 6 :=
  hm .statement ts h

theorem ReturnsBelow.unary (h : 10 * ts.length + 4 < m) :
    Returns (fun k => unrolled eof k .unary ts) (Parser.unary eof ts).verdict ts (-6) 4 :=
  hm .unary ts h

theorem ReturnsBelow.moreArguments (h : 10 * ts.length < m) :
    Returns (fun k => unrolled eof k .moreArguments ts) (Parser.moreArguments eof ts).verdict ts
      1 0 :=
  hm .moreArguments ts h

theorem ReturnsBelow.moreParams (h : 10 * ts.length < m) :
    Returns (fun k => unrolled eof k .moreParams ts) (Parser.moreParams eof ts).verdict ts 1 0 :=
  hm .moreParams ts h

theorem ReturnsBelow.moreStatements (h : 10 * ts.length < m) :
    Returns (fun k => unrolled eof k .moreStatements ts) (Parser.moreStatements eof ts).verdict ts
      1 0 :=
  hm .moreStatements ts h

theorem returns_primary (hts : 10 * ts.length + 1 ≤ m) :
    Returns (fun k => unrolled eof k .primary ts) (primary eof ts).verdict ts (-9) 1 := by
  refine Returns.counted ?_
  by_cases hident : peek ts = .ident
  · simp only [body, if_pos hident, verdict_primary_ident eof hident]
    exact ((returns_identifier ts).map _).mono (by omega) (by omega)
  by_cases hint : peek ts = .int
  · simp only [body, if_neg hident, if_pos hint, verdict_primary_int eof hint]
    exact ((returns_expectPayload (by decide) _ ts).map _).mono (by omega) (by omega)
  · simp only [body, if_neg hident, if_neg hint, verdict_primary_other eof hident hint]
    refine (returns_expect (by decide) ts).andThen (fun _ us _ hus => ?_) (by omega)
    refine (hm.statement (by omega)).andThen (fun inner vs _ _ => ?_) (by omega)
    exact ((returns_expect (by decide) vs).map _).mono (by omega) (by omega)

theorem returns_moreArguments (hts : 10 * ts.length ≤ m) :
    Returns (fun k => unrolled eof k .moreArguments ts) (moreArguments eof ts).verdict ts 1 0 := by
  refine Returns.counted ?_
  by_cases hcomma : peek ts = .comma
  · rw [verdict_moreArguments, if_pos hcomma]
    simp only [body, if_pos hcomma]
    refine Returns.tail hcomma (by decide) fun htail => ?_
    refine (hm.statement (by omega)).andThen (fun arg us _ hus => ?_) (by omega)
    exact ((hm.moreArguments (by omega)).map _).mono (by omega) (by omega)
  · rw [verdict_moreArguments, if_neg hcomma]
    simp only [body, if_neg hcomma]
    exact returns_done [] ts (by omega)

theorem returns_arguments (hts : 10 * ts.length + 7 ≤ m) :
    Returns (fun k => unrolled eof k .arguments ts) (arguments eof ts).verdict ts 1 7 := by
  refine Returns.counted ?_
  by_cases hclose : peek ts = .rparen
  · simp only [body, verdict_arguments, if_pos hclose]
    exact returns_done [] ts (by omega)
  · simp only [body, verdict_arguments, if_neg hclose]
    refine (hm.statement (by omega)).andThen (fun arg us _ hus => ?_) (by omega)
    exact ((hm.moreArguments (by omega)).map _).mono (by omega) (by omega)

theorem returns_application (hts : 10 * ts.length + 2 ≤ m) :
    Returns (fun k => unrolled eof k .application ts) (application eof ts).verdict ts (-8) 2 := by
  refine Returns.counted ?_
  simp only [body, verdict_application]
  have hprimary : Returns _ (primary eof ts).verdict ts (-9) 1 :=
    hm.call .primary rfl rfl (by omega)
  refine hprimary.andThen (fun callee us _ hus => ?_) (by omega)
  by_cases hopen : peek us = .lparen
  · simp only [if_pos hopen]
    refine Returns.tail hopen (by decide) fun htail => ?_
    have harguments : Returns _ (arguments eof us.tail).verdict us.tail 1 7 :=
      hm.call .arguments rfl rfl (by omega)
    refine harguments.andThen (fun args vs _ _ => ?_) (by omega)
    exact ((returns_expect (by decide) vs).map _).mono (by omega) (by omega)
  · simp only [if_neg hopen]
    exact returns_done callee us (by omega)

theorem returns_power (hts : 10 * ts.length + 3 ≤ m) :
    Returns (fun k => unrolled eof k .power ts) (power eof ts).verdict ts (-7) 3 := by
  refine Returns.counted ?_
  simp only [body, verdict_power]
  have hbase : Returns _ (application eof ts).verdict ts (-8) 2 :=
    hm.call .application rfl rfl (by omega)
  refine hbase.andThen (fun base us _ hus => ?_) (by omega)
  by_cases hop : peek us = .power
  · simp only [if_pos hop]
    refine Returns.tail hop (by decide) fun htail => ?_
    exact ((hm.unary (by omega)).map _).mono (by omega) (by omega)
  · simp only [if_neg hop]
    exact returns_done base us (by omega)

theorem returns_unary (hts : 10 * ts.length + 4 ≤ m) :
    Returns (fun k => unrolled eof k .unary ts) (unary eof ts).verdict ts (-6) 4 := by
  refine Returns.counted ?_
  cases hsign : sign? (peek ts) with
  | none =>
    simp only [body, hsign, verdict_unary_other eof hsign]
    have hpower : Returns _ (power eof ts).verdict ts (-7) 3 := hm.call .power rfl rfl (by omega)
    exact hpower.mono (by omega) (by omega)
  | some op =>
    cases ts with
    | nil => cases hsign
    | cons t ts =>
      rw [List.length_cons] at hts
      have hkind : t.kind ≠ .eof := fun h => by rw [peek_cons, h] at hsign; cases hsign
      simp only [body, hsign, verdict_unary_sign eof hsign, List.tail_cons]
      exact (((hm.unary (by omega)).map _).mono (by omega) (by omega)).cons hkind

/-- The loop over the operators. No inner induction is needed, unlike in the other modules: the rest
of the loop is a call of its own, on fewer tokens. -/
theorem returns_operators (least : ℕ) (left : Expr) (hts : 10 * ts.length ≤ m) :
    Returns (fun k => unrolled eof k (.operators least left) ts)
      (operators eof least left ts).verdict ts 1 0 := by
  refine Returns.counted ?_
  -- an operator that is not stopped takes its right operand, and the loop goes on behind it
  have hstep : ∀ {t : Token} {us : List Token} {l r : ℕ} {op : BinaryOp}, ts = t :: us →
      t.kind.bindingPower? = some (l, r) → BinaryOp.ofToken? t.kind = some op → least ≤ l →
      Returns (fun k => body eof (unrolled eof k) (.operators least left) ts)
        (operators eof least left ts).verdict ts (1 - 1) (0 - 1) := by
    rintro t us l r op rfl hpower hop hle
    rw [List.length_cons] at hts
    have hkind : t.kind ≠ .eof := fun h => by rw [h] at hop; cases hop
    simp only [body, verdict_operators_of_le eof hpower hop hle, peek_cons, hpower, hop,
      if_neg (Nat.not_lt.mpr hle), List.tail_cons]
    refine Returns.cons ?_ hkind
    have hright : Returns _ (operation eof r us).verdict us (-4) 5 :=
      hm.call (.operation r) rfl rfl (by omega)
    refine hright.andThen (fun right vs _ hvs => ?_) (by omega)
    have hmore : Returns _ (operators eof least (.binary op left right) vs).verdict vs 1 0 :=
      hm.call (.operators least (.binary op left right)) rfl rfl (by omega)
    exact hmore.mono (by omega) (by omega)
  rcases stops_or_operator least ts with hstops | ⟨t, us, op, hcons, hop, hle⟩ |
    ⟨t, us, op, hcons, hop, hle⟩
  · rw [verdict_operators_of_stops eof hstops]
    have hdone : ∀ k, body eof (unrolled eof k) (.operators least left) ts = .done left ts := by
      intro k
      rw [body]
      split
      · next l r op hpower _ => rw [if_pos (hstops l r hpower)]
      · rfl
    simp only [hdone]
    exact returns_done left ts (by omega)
  · obtain ⟨hpower, hop⟩ := sumOp?_eq_some_iff.mp hop
    exact hstep hcons hpower hop hle
  · obtain ⟨hpower, hop⟩ := productOp?_eq_some_iff.mp hop
    exact hstep hcons hpower hop hle

theorem returns_operation (least : ℕ) (hts : 10 * ts.length + 5 ≤ m) :
    Returns (fun k => unrolled eof k (.operation least) ts) (operation eof least ts).verdict ts
      (-4) 5 := by
  refine Returns.counted ?_
  simp only [body, verdict_operation]
  refine (hm.unary (by omega)).andThen (fun left us _ hus => ?_) (by omega)
  have hmore : Returns _ (operators eof least left us).verdict us 1 0 :=
    hm.call (.operators least left) rfl rfl (by omega)
  exact hmore.mono (by omega) (by omega)

/-! ### Declarations and statements -/

theorem returns_moreParams (hts : 10 * ts.length ≤ m) :
    Returns (fun k => unrolled eof k .moreParams ts) (moreParams eof ts).verdict ts 1 0 := by
  refine Returns.counted ?_
  by_cases hcomma : peek ts = .comma
  · rw [verdict_moreParams, if_pos hcomma]
    simp only [body, if_pos hcomma]
    refine Returns.tail hcomma (by decide) fun htail => ?_
    refine (returns_identifier _).andThen (fun name us _ hus => ?_) (by omega)
    exact ((hm.moreParams (by omega)).map _).mono (by omega) (by omega)
  · rw [verdict_moreParams, if_neg hcomma]
    simp only [body, if_neg hcomma]
    exact returns_done [] ts (by omega)

theorem returns_params (hts : 10 * ts.length + 1 ≤ m) :
    Returns (fun k => unrolled eof k .params ts) (params eof ts).verdict ts 1 1 := by
  refine Returns.counted ?_
  by_cases hident : peek ts = .ident
  · simp only [body, verdict_params, if_pos hident]
    refine (returns_identifier _).andThen (fun name us _ hus => ?_) (by omega)
    exact ((hm.moreParams (by omega)).map _).mono (by omega) (by omega)
  · simp only [body, verdict_params, if_neg hident]
    exact returns_done [] ts (by omega)

theorem returns_function (hts : 10 * ts.length + 5 ≤ m) :
    Returns (fun k => unrolled eof k .function ts) (Call.function.verdict eof ts) ts (-4) 5 := by
  refine Returns.counted ?_
  simp only [body, Call.verdict]
  refine (returns_expect (by decide) ts).andThen (fun _ us _ hus => ?_) (by omega)
  refine (returns_expect (by decide) us).andThen (fun _ vs _ hvs => ?_) (by omega)
  have hparams : Returns _ (params eof vs).verdict vs 1 1 := hm.call .params rfl rfl (by omega)
  refine hparams.andThen (fun names ws _ hws => ?_) (by omega)
  refine (returns_expect (by decide) ws).andThen (fun _ xs _ hxs => ?_) (by omega)
  refine (returns_expect (by decide) xs).andThen (fun _ ys _ hys => ?_) (by omega)
  exact ((hm.statement (by omega)).map _).mono (by omega) (by omega)

theorem returns_declaration (hts : 10 * ts.length + 5 ≤ m) :
    Returns (fun k => unrolled eof k .declaration ts) (Call.declaration.verdict eof ts) ts
      (-4) 5 := by
  refine Returns.counted ?_
  simp only [body, Call.verdict]
  refine (returns_expect (by decide) ts).andThen (fun _ us _ hus => ?_) (by omega)
  refine (returns_identifier us).andThen (fun name vs _ hvs => ?_) (by omega)
  refine (returns_expect (by decide) vs).andThen (fun _ ws _ hws => ?_) (by omega)
  exact ((hm.statement (by omega)).map _).mono (by omega) (by omega)

theorem returns_statement (hts : 10 * ts.length + 6 ≤ m) :
    Returns (fun k => unrolled eof k .statement ts) (statement eof ts).verdict ts (-3) 6 := by
  refine Returns.counted ?_
  by_cases hfunc : peek ts = .func
  · simp only [body, if_pos hfunc, verdict_statement_func eof hfunc]
    have hfunction : Returns _ (Call.function.verdict eof ts) ts (-4) 5 :=
      hm.call .function rfl rfl (by omega)
    exact hfunction.mono (by omega) (by omega)
  by_cases hlet : peek ts = .kwLet
  · simp only [body, if_neg hfunc, if_pos hlet, verdict_statement_let eof hlet]
    have hdeclaration : Returns _ (Call.declaration.verdict eof ts) ts (-4) 5 :=
      hm.call .declaration rfl rfl (by omega)
    exact hdeclaration.mono (by omega) (by omega)
  · simp only [body, if_neg hfunc, if_neg hlet, verdict_statement_other eof hfunc hlet]
    have hoperation : Returns _ (operation eof 0 ts).verdict ts (-4) 5 :=
      hm.call (.operation 0) rfl rfl (by omega)
    exact hoperation.mono (by omega) (by omega)

theorem returns_moreStatements (hts : 10 * ts.length ≤ m) :
    Returns (fun k => unrolled eof k .moreStatements ts) (moreStatements eof ts).verdict ts
      1 0 := by
  refine Returns.counted ?_
  by_cases hnewline : peek ts = .newline
  · cases ts with
    | nil => cases hnewline
    | cons t ts =>
      have ht : t.kind = .newline := hnewline
      have hkind : t.kind ≠ .eof := by rw [ht]; decide
      rw [List.length_cons] at hts
      rw [verdict_moreStatements_newline eof ht]
      by_cases hagain : peek (t :: ts).tail = .newline
      · rw [if_pos (show peek ts = .newline from hagain)]
        simp only [body, if_pos hnewline, if_pos hagain]
        have hmore : 10 * ts.length < m := by omega
        exact ((hm.moreStatements hmore).mono (by omega) (by omega)).cons hkind
      rw [if_neg (show peek ts ≠ .newline from hagain)]
      by_cases hend : peek (t :: ts).tail = .eof
      · rw [if_pos (show peek ts = .eof from hend)]
        simp only [body, if_pos hnewline, if_neg hagain, if_pos hend]
        exact (returns_done [] ts (by omega)).cons hkind
      · rw [if_neg (show peek ts ≠ .eof from hend)]
        simp only [body, if_pos hnewline, if_neg hagain, if_neg hend]
        refine Returns.cons ?_ hkind
        have hstatement : Returns _ (statement eof ts).verdict ts (-3) 6 := hm.statement (by omega)
        refine hstatement.andThen (fun e us _ hus => ?_) (by omega)
        exact ((hm.moreStatements (by omega)).map _).mono (by omega) (by omega)
  · simp only [body, if_neg hnewline, verdict_moreStatements_of_ne eof hnewline]
    exact returns_done [] ts (by omega)

theorem returns_statements (hts : 10 * ts.length + 7 ≤ m) :
    Returns (fun k => unrolled eof k .statements ts) (statements eof ts) ts (-1) 7 := by
  refine Returns.counted ?_
  simp only [body, statements]
  refine (hm.statement (by omega)).andThen (fun first us _ hus => ?_) (by omega)
  exact ((hm.moreStatements (by omega)).map _).mono (by omega) (by omega)

omit hm

variable (eof) in
/-- **Every call returns**, at what its tokens pay for. The induction is on a bound for the tokens
and the level. -/
theorem returns_call (c : Call α) (ts : List Token) :
    Returns (fun k => unrolled eof k c ts) (c.verdict eof ts) ts c.surplus c.level := by
  suffices hbelow : ∀ m, ReturnsBelow eof m from hbelow _ c ts (Nat.lt_succ_self _)
  intro m
  induction m with
  | zero => exact fun _ _ h => absurd h (Nat.not_lt_zero _)
  | succ m ih =>
    intro α c ts h
    have hts := Nat.le_of_lt_succ h
    cases c with
    | statements => exact returns_statements ih hts
    | moreStatements => exact returns_moreStatements ih hts
    | statement => exact returns_statement ih hts
    | function => exact returns_function ih hts
    | params => exact returns_params ih hts
    | moreParams => exact returns_moreParams ih hts
    | declaration => exact returns_declaration ih hts
    | operation least => exact returns_operation ih least hts
    | operators least left => exact returns_operators ih least left hts
    | unary => exact returns_unary ih hts
    | power => exact returns_power ih hts
    | application => exact returns_application ih hts
    | arguments => exact returns_arguments ih hts
    | moreArguments => exact returns_moreArguments ih hts
    | primary => exact returns_primary ih hts

/-! ### The end of the input -/

/-- At the end of the input, a primary expression is missing its parenthesis. -/
theorem verdict_statement_of_eof {ts : List Token} (h : peek ts = .eof) :
    (statement eof ts).verdict =
      .error (⟨.expected .lparen .eof, peekSpan eof ts⟩, ts) := by
  have hprimary : (primary eof ts).verdict =
      .error (⟨.expected .lparen .eof, peekSpan eof ts⟩, ts) := by
    rw [verdict_primary_other eof (by rw [h]; decide) (by rw [h]; decide),
      verdict_expect_of_ne eof (by rw [h]; decide), unexpected, h]
    rfl
  rw [verdict_statement_other eof (by rw [h]; decide) (by rw [h]; decide), verdict_operation,
    verdict_unary_other eof (by rw [h]; rfl), verdict_power, verdict_application, hprimary]
  rfl

/-- A success of what may not be empty leaves something, and so it has consumed a token. -/
theorem Call.surplus_neg {c : Call α} (h : c.mayBeEmpty = false) : c.surplus < 0 := by
  cases c <;> simp [surplus, mayBeEmpty] at h ⊢

theorem Call.surplus_le (c : Call α) : c.surplus ≤ 10 := by
  cases c <;> simp [surplus]

theorem Call.level_le (c : Call α) : c.level ≤ 10 := by
  cases c <;> simp [level]

variable (eof) in
/-- Every call returns, after a number of calls that is linear in the consumed tokens. -/
theorem call_progress (c : Call α) (ts : List Token) :
    ∃ (piece rest : List Token) (n : ℕ), ts = piece ++ rest ∧ (∀ t ∈ piece, t.kind ≠ .eof) ∧
      (∀ k, n ≤ k → unrolled eof k c ts = some (n, c.verdict eof ts)) ∧
      n ≤ 10 * (piece.length + 1) ∧ (c.verdict eof ts).remaining = rest ∧
      (c.mayBeEmpty = false → ∀ a, c.verdict eof ts = .ok (a, rest) → piece ≠ []) := by
  obtain ⟨piece, n, hts, hpiece, hrun, hn⟩ := returns_call eof c ts
  have hallowance : (c.verdict eof ts).allowance c.surplus c.level ≤ 10 := by
    rcases c.verdict eof ts with e | a
    · exact Int.ofNat_le.mpr c.level_le
    · exact c.surplus_le
  refine ⟨piece, _, n, hts, hpiece, hrun, by omega, rfl, ?_⟩
  rintro hempty a ha rfl
  -- without tokens there is nothing to pay for a success
  have hneg := Call.surplus_neg hempty
  rw [ha, List.length_nil, Verdict.allowance] at hn
  omega

/-- A program is a piece without an end of the input, and such an end behind it. -/
theorem program_progress (ts : List Token) :
    ∃ piece rest : List Token, ts = piece ++ rest ∧ (∀ t ∈ piece, t.kind ≠ .eof) ∧
      ((∃ es, (program eof ts).verdict = .ok (es, rest.tail) ∧ peek rest = .eof) ∨
        ∃ e, (program eof ts).verdict = .error (e, rest)) := by
  obtain ⟨piece, n, hts, hpiece, -, -⟩ := returns_call eof .statements ts
  refine ⟨piece, _, hts, hpiece, ?_⟩
  rw [verdict_program_eq_statements, Call.verdict]
  rcases statements eof ts with ⟨e, rest⟩ | ⟨es, rest⟩
  · exact .inr ⟨e, rfl⟩
  · rw [Verdict.andThen_ok, Verdict.remaining]
    by_cases hend : peek rest = .eof
    · rw [(verdict_endOfInput_eq_ok eof).mpr ⟨hend, rfl⟩]
      exact .inl ⟨es, rfl, hend⟩
    · rw [verdict_endOfInput_of_ne eof hend]
      exact .inr ⟨_, rfl⟩

end Parser

namespace TokenStream

open ArrowCalc.Parser

/-- At the end of the input, a reading fails and changes nothing. -/
theorem readStatement_of_eof {s : TokenStream} (h : peek s.tokens = .eof) :
    s.readStatement = (.error ⟨.expected .lparen .eof, peekSpan s.eof s.tokens⟩, s) := by
  rw [readStatement_eq_of_verdict, verdict_statement_of_eof h]

theorem afterReadings_of_eof {s : TokenStream} (h : peek s.tokens = .eof) (n : ℕ) :
    s.afterReadings n = s := by
  induction n with
  | zero => rfl
  | succ n ih => rw [afterReadings, ih, readStatement_of_eof h]

/-- **Progress of the parser**, on every list of tokens with the end of the input behind it.

* Every production returns: from some depth of calls on its recursion gives the verdict, after at
  most ten calls for each consumed token and ten more. It consumes a piece without an end of the
  input, which is not empty if the production succeeds.
* A program consumes such a piece too, and an end of the input behind it if it succeeds.
* At an end of the input, any number of readings of statements fail there and leave the stream as it
  is. -/
theorem productions_progress (s : TokenStream) :
    (∀ {α : Type} (c : Call α), ∃ (piece rest : List Token) (n : ℕ),
      s.tokens = piece ++ rest ∧ (∀ t ∈ piece, t.kind ≠ .eof) ∧
      (∀ k, n ≤ k → unrolled s.eof k c s.tokens = some (n, c.verdict s.eof s.tokens)) ∧
      n ≤ 10 * (piece.length + 1) ∧ (c.verdict s.eof s.tokens).remaining = rest ∧
      (c.mayBeEmpty = false → ∀ a, c.verdict s.eof s.tokens = .ok (a, rest) → piece ≠ [])) ∧
    (∃ piece rest : List Token, s.tokens = piece ++ rest ∧ (∀ t ∈ piece, t.kind ≠ .eof) ∧
      ((∃ es, s.readProgram = (.block es, ⟨rest.tail, s.eof⟩) ∧ peek rest = .eof) ∨
        ∃ message, s.readProgram = (.malformed message, ⟨rest, s.eof⟩))) ∧
    ((s.get 0).kind = .eof → ∀ n, s.afterReadings n = s ∧ ∃ error,
      (s.afterReadings n).readStatement = (.error error, s) ∧
        error.message = "Expected LParen, got EOF" ∧ error.span = (s.get 0).span) := by
  refine ⟨fun c => call_progress s.eof c s.tokens, ?_, ?_⟩
  · obtain ⟨piece, rest, hts, hpiece, hverdict⟩ := program_progress s.tokens
    refine ⟨piece, rest, hts, hpiece, ?_⟩
    rw [readProgram_eq_of_verdict]
    rcases hverdict with ⟨es, hes, hend⟩ | ⟨e, he⟩
    · rw [hes]
      exact .inl ⟨es, rfl, hend⟩
    · rw [he]
      exact .inr ⟨e.message, rfl⟩
  · intro heof n
    obtain ⟨hkind, hspan⟩ := get_length_append [] s.tokens s.eof
    have hpeek : peek s.tokens = .eof := hkind.symm.trans heof
    rw [afterReadings_of_eof hpeek, readStatement_of_eof hpeek]
    exact ⟨rfl, _, rfl, rfl, hspan.symm⟩

end TokenStream

end ArrowCalc
