import ArrowCalc.Expr.Parser
import ArrowCalc.Proofs.Grammar

/-!
# The productions of the parser as plain functions

An `Outcome` carries the proof that a value costs tokens, which makes the productions terminate and
makes two outcomes of different tokens hard to compare. A `Verdict` is an outcome without the proof:
a value or an error, with the tokens that were not consumed.

## Why the proofs are about verdicts

The type of an outcome depends on the number of tokens that the production was given. A statement
such as "the production does the same on `ts` and on `us`" does not even typecheck for outcomes, and
where it does, rewriting the tokens in it fails because the bound would have to be rewritten along.
None of the statements about the parser needs the bound. Those which need that a value costs tokens
get it from `Outcome.length_lt_of_verdict`, at the place where they need it.

Nothing is lost on the way: an outcome is determined by its verdict (`Outcome.ext_verdict`).

## The equations

For each production there is one equation between verdicts, named after it. Everything else about
the parser is derived from these equations, and no later proof opens a production. A production that
decides by the next token has one equation for each way it can decide, with the decision as the
hypothesis. Where the code tries a token and drops the error if it is not there (a comma, an opening
parenthesis, a power operator, a line break), the equation says `if peek ts = …` instead: the error
is made and never seen, and a proof should not have to talk about it.

A change to one production changes its equation here, and after that the lemmas of this production
in the modules about soundness, completeness and errors.

## Main definitions

* `Parser.Verdict`, `Parser.Verdict.andThen`, `Parser.Verdict.map`
* `Parser.Outcome.verdict`

## Main results

* `Parser.verdict_statement_func`, `verdict_statement_let`, `verdict_statement_other`,
  `verdict_operation`, `verdict_operators_sum`, `verdict_operators_product`,
  `verdict_operators_of_stops`, `verdict_unary_sign`, `verdict_unary_other`, `verdict_power`,
  `verdict_application`, `verdict_arguments`, `verdict_moreArguments`, `verdict_primary_ident`,
  `verdict_primary_int`, `verdict_primary_other` — the equations of the expressions
* `Parser.verdict_program`, `verdict_moreStatements_newline`, `verdict_endOfInput_eq_ok` — those of
  the programs
* `TokenStream.readStatement_eq_of_verdict`, `TokenStream.readProgram_eq_of_verdict` — what is read
  from a stream
-/

namespace ArrowCalc

namespace Parser

open Grammar

/-! ### Verdicts

The two ways to go on, and what they say about their parts. The lemmas with `↔` are how the later
proofs take a reading apart: a value came from a value of each part, an error came from the first
part that has one. -/

/-- A value or an error, with the tokens that were not consumed. -/
abbrev Verdict (α : Type) := Except (SyntaxError × List Token) (α × List Token)

namespace Verdict

variable {α β : Type}

/-- Goes on behind a value. -/
def andThen (v : Verdict α) (next : α → List Token → Verdict β) : Verdict β :=
  match v with
  | .ok (a, rest) => next a rest
  | .error e => .error e

/-- Changes the value. -/
def map (f : α → β) (v : Verdict α) : Verdict β := v.andThen fun a rest => .ok (f a, rest)

@[simp] theorem andThen_ok (a : α) (rest : List Token) (next : α → List Token → Verdict β) :
    andThen (.ok (a, rest)) next = next a rest := rfl

@[simp] theorem map_ok (f : α → β) (a : α) (rest : List Token) :
    map f (.ok (a, rest)) = .ok (f a, rest) := rfl

/-- A value came from a value of the first part. -/
theorem andThen_eq_ok {v : Verdict α} {next : α → List Token → Verdict β} {b : β × List Token} :
    v.andThen next = .ok b ↔ ∃ a rest, v = .ok (a, rest) ∧ next a rest = .ok b := by
  constructor
  · intro h
    rcases v with e | ⟨a, rest⟩
    · cases h
    · exact ⟨a, rest, rfl, h⟩
  · rintro ⟨a, rest, rfl, h⟩
    exact h

/-- An error came from the first part, or from what went on behind its value. -/
theorem andThen_eq_error {v : Verdict α} {next : α → List Token → Verdict β}
    {x : SyntaxError × List Token} :
    v.andThen next = .error x ↔
      v = .error x ∨ ∃ a rest, v = .ok (a, rest) ∧ next a rest = .error x := by
  constructor
  · intro h
    rcases v with e | ⟨a, rest⟩
    · cases h
      exact .inl rfl
    · exact .inr ⟨a, rest, rfl, h⟩
  · rintro (rfl | ⟨a, rest, rfl, h⟩)
    · rfl
    · exact h

theorem map_eq_error {f : α → β} {v : Verdict α} {x : SyntaxError × List Token} :
    v.map f = .error x ↔ v = .error x := by
  rw [map, andThen_eq_error]
  constructor
  · rintro (h | ⟨a, rest, -, h⟩)
    · exact h
    · cases h
  · exact .inl

theorem map_eq_ok {f : α → β} {v : Verdict α} {b : β} {rest : List Token} :
    v.map f = .ok (b, rest) ↔ ∃ a, v = .ok (a, rest) ∧ f a = b := by
  rw [map, andThen_eq_ok]
  constructor
  · rintro ⟨a, rest', h, heq⟩
    obtain ⟨rfl, rfl⟩ := Prod.mk.inj (Except.ok.inj heq)
    exact ⟨a, h, rfl⟩
  · rintro ⟨a, h, rfl⟩
    exact ⟨a, rest, h, rfl⟩

/-- What goes on behind a value counts only for the value that there is, and the proof may know
where the value came from. -/
theorem andThen_congr {v : Verdict α} {next next' : α → List Token → Verdict β}
    (h : ∀ a rest, v = .ok (a, rest) → next a rest = next' a rest) :
    v.andThen next = v.andThen next' := by
  rcases v with e | ⟨a, rest⟩
  · rfl
  · exact h a rest rfl

theorem andThen_assoc {γ : Type} (v : Verdict α) (next : α → List Token → Verdict β)
    (last : β → List Token → Verdict γ) :
    (v.andThen next).andThen last = v.andThen fun a rest => (next a rest).andThen last := by
  rcases v with e | ⟨a, rest⟩ <;> rfl

end Verdict

namespace Outcome

variable {α β : Type} {m n : ℕ}

/-- An outcome without the proof that a value costs tokens. The bound `n` is gone from the type, so
that verdicts of different tokens can be equal. -/
def verdict : Outcome α n → Verdict α
  | ok a rest _ => .ok (a, rest)
  | fail e rest => .error (e, rest)

@[simp] theorem verdict_weaken (h : n ≤ m) (o : Outcome α n) :
    (o.weaken h).verdict = o.verdict := by
  cases o <;> rfl

@[simp] theorem verdict_map (f : α → β) (o : Outcome α n) :
    (o.map f).verdict = o.verdict.map f := by
  cases o <;> rfl

/-- To go on behind an outcome is to go on behind its verdict. The continuation of an outcome is
given the proof that the rest is shorter, and the hypothesis says that its verdict does not depend
on it. -/
theorem verdict_andMaybe {o : Outcome α n}
    {next : α → (rest : List Token) → rest.length < n → Outcome β (rest.length + 1)}
    {k : α → List Token → Verdict β} (h : ∀ a rest lt, (next a rest lt).verdict = k a rest) :
    (o.andMaybe next).verdict = o.verdict.andThen k := by
  cases o with
  | ok a rest lt => exact (verdict_weaken lt _).trans (h a rest lt)
  | fail e rest => rfl

theorem verdict_andThen {o : Outcome α n}
    {next : α → (rest : List Token) → rest.length < n → Outcome β rest.length}
    {k : α → List Token → Verdict β} (h : ∀ a rest lt, (next a rest lt).verdict = k a rest) :
    (o.andThen next).verdict = o.verdict.andThen k :=
  verdict_andMaybe fun a rest lt => (verdict_weaken _ _).trans (h a rest lt)

/-- A value costs tokens. This is all that is ever needed of the bound in the type. -/
theorem length_lt_of_verdict {o : Outcome α n} {a : α} {rest : List Token}
    (h : o.verdict = .ok (a, rest)) : rest.length < n := by
  cases o with
  | ok _ _ lt =>
    cases h
    exact lt
  | fail _ _ => cases h

/-- An outcome is its verdict: two proofs of one inequality are equal. -/
theorem ext_verdict {o o' : Outcome α n} (h : o.verdict = o'.verdict) : o = o' := by
  cases o <;> cases o' <;> cases h <;> rfl

theorem result_eq_ok_iff {o : Outcome α n} {a : α} :
    o.result = .ok a ↔ ∃ rest, o.verdict = .ok (a, rest) := by
  constructor
  · intro h
    cases o with
    | ok _ rest _ =>
      cases h
      exact ⟨rest, rfl⟩
    | fail _ _ => cases h
  · rintro ⟨rest, h⟩
    cases o with
    | ok _ _ _ =>
      cases h
      rfl
    | fail _ _ => cases h

end Outcome

variable (eof : Span)

/-! ### Single tokens

What `expect` does is decided by the kind of the next token, with one exception. At the end of the
list `peek` answers with the end of the input, and `expect` does not find it there: the list is
empty. So `peek ts ≠ wanted` is enough for a failure, while a success needs a token. -/

theorem peek_cons (t : Token) (ts : List Token) : peek (t :: ts) = t.kind := rfl

theorem verdict_expect_of_kind {wanted : TokenKind} {t : Token} (h : t.kind = wanted)
    (ts : List Token) : (expect eof wanted (t :: ts)).verdict = .ok (t, ts) := by
  rw [expect, if_pos h]
  rfl

theorem verdict_expect_of_ne {wanted : TokenKind} {ts : List Token} (h : peek ts ≠ wanted) :
    (expect eof wanted ts).verdict = .error (unexpected eof wanted ts, ts) := by
  cases ts with
  | nil => rfl
  | cons t ts =>
    have ht : t.kind ≠ wanted := h
    rw [expect, if_neg ht]
    rfl

theorem verdict_expect_eq_ok {wanted : TokenKind} {ts rest : List Token} {t : Token} :
    (expect eof wanted ts).verdict = .ok (t, rest) ↔ ts = t :: rest ∧ t.kind = wanted := by
  constructor
  · intro h
    cases ts with
    | nil => cases h
    | cons u us =>
      by_cases hu : u.kind = wanted
      · rw [verdict_expect_of_kind eof hu] at h
        obtain ⟨rfl, rfl⟩ := Prod.mk.inj (Except.ok.inj h)
        exact ⟨rfl, hu⟩
      · rw [verdict_expect_of_ne eof (show peek (u :: us) ≠ wanted from hu)] at h
        cases h
  · rintro ⟨rfl, h⟩
    exact verdict_expect_of_kind eof h rest

theorem peek_of_expect_ok {wanted : TokenKind} {ts rest : List Token} {t : Token}
    {lt : rest.length < ts.length} (h : expect eof wanted ts = .ok t rest lt) :
    peek ts = wanted ∧ ts.tail = rest := by
  obtain ⟨rfl, hkind⟩ := (verdict_expect_eq_ok eof).mp (congrArg Outcome.verdict h)
  exact ⟨hkind, rfl⟩

/-- A token that was not found is not there, unless it is the end of the input, which is there
without being in the list. -/
theorem peek_of_expect_fail {wanted : TokenKind} {ts rest : List Token} {e : SyntaxError}
    (h : expect eof wanted ts = .fail e rest) (hw : wanted ≠ .eof) : peek ts ≠ wanted := by
  intro hpeek
  cases ts with
  | nil => exact hw hpeek.symm
  | cons t ts =>
    have hok := verdict_expect_of_kind eof (show t.kind = wanted from hpeek) ts
    rw [h] at hok
    cases hok

/-- A literal is read in two steps, and the second one can fail behind the token. This is the only
error that is reported in front of the tokens behind the one it is about. -/
theorem verdict_expectPayload {α : Type} (wanted : TokenKind) (get? : Token → Option α)
    (ts : List Token) :
    (expectPayload eof wanted get? ts).verdict =
      (expect eof wanted ts).verdict.andThen fun t rest =>
        match get? t with
        | some a => .ok (a, rest)
        | none => .error (⟨.missingPayload t.kind, t.span⟩, rest) := by
  rw [expectPayload]
  refine Outcome.verdict_andMaybe fun t rest _ => ?_
  cases get? t <;> rfl

theorem verdict_expectPayload_eq_ok {α : Type} {wanted : TokenKind} {get? : Token → Option α}
    {ts rest : List Token} {a : α} :
    (expectPayload eof wanted get? ts).verdict = .ok (a, rest) ↔
      ∃ t, ts = t :: rest ∧ t.kind = wanted ∧ get? t = some a := by
  rw [verdict_expectPayload, Verdict.andThen_eq_ok]
  constructor
  · rintro ⟨t, rest', ht, h⟩
    obtain ⟨rfl, hkind⟩ := (verdict_expect_eq_ok eof).mp ht
    cases hget : get? t with
    | none => rw [hget] at h; cases h
    | some b =>
      rw [hget] at h
      obtain ⟨rfl, rfl⟩ := Prod.mk.inj (Except.ok.inj h)
      exact ⟨t, rfl, hkind, hget⟩
  · rintro ⟨t, rfl, hkind, hget⟩
    exact ⟨t, rest, verdict_expect_of_kind eof hkind rest, by rw [hget]⟩

/-! ### Parameter lists

A list of names ends where no comma follows. What stands there instead is not looked at: that it is
a closing parenthesis is for the production of the function literal to check. -/

theorem verdict_moreParams (ts : List Token) :
    (moreParams eof ts).verdict =
      if peek ts = .comma then
        (identifier eof ts.tail).verdict.andThen fun name rest =>
          (moreParams eof rest).verdict.map (name :: ·)
      else .ok ([], ts) := by
  rw [moreParams]
  cases h : expect eof .comma ts with
  | fail e rest =>
    rw [if_neg (peek_of_expect_fail eof h nofun)]
    rfl
  | ok t rest lt =>
    obtain ⟨hpeek, rfl⟩ := peek_of_expect_ok eof h
    simp only [if_pos hpeek, Outcome.verdict_weaken]
    exact Outcome.verdict_andMaybe fun _ _ _ => Outcome.verdict_map _ _

theorem verdict_params (ts : List Token) :
    (params eof ts).verdict =
      if peek ts = .ident then
        (identifier eof ts).verdict.andThen fun name rest =>
          (moreParams eof rest).verdict.map (name :: ·)
      else .ok ([], ts) := by
  rw [params]
  split
  · rw [Outcome.verdict_weaken]
    exact Outcome.verdict_andMaybe fun _ _ _ => Outcome.verdict_map _ _
  · rfl

/-! ### Expressions

The equations in the order of the productions, from the primary expressions up. The continuations in
them are written out, so that a proof can rewrite with an equation and go on with its first part. -/

theorem verdict_primary_ident {ts : List Token} (h : peek ts = .ident) :
    (primary eof ts).verdict = (identifier eof ts).verdict.map .var := by
  rw [primary, h]
  exact Outcome.verdict_map _ _

theorem verdict_primary_int {ts : List Token} (h : peek ts = .int) :
    (primary eof ts).verdict = (expectPayload eof .int Token.int? ts).verdict.map .int := by
  rw [primary, h]
  exact Outcome.verdict_map _ _

/-- Everything that is neither a name nor a literal is taken for a parenthesis. This includes the
end of the input, and it is why a missing operand is reported as a missing `(`. -/
theorem verdict_primary_other {ts : List Token} (hident : peek ts ≠ .ident)
    (hint : peek ts ≠ .int) :
    (primary eof ts).verdict =
      (expect eof .lparen ts).verdict.andThen fun _ ts =>
        (statement eof ts).verdict.andThen fun inner ts =>
          (expect eof .rparen ts).verdict.map fun _ => .paren inner := by
  rw [primary]
  split
  · next h => exact absurd h hident
  · next h => exact absurd h hint
  · refine Outcome.verdict_andThen fun _ ts _ => ?_
    refine Outcome.verdict_andThen fun inner ts _ => ?_
    exact Outcome.verdict_map _ _

theorem verdict_moreArguments (ts : List Token) :
    (moreArguments eof ts).verdict =
      if peek ts = .comma then
        (statement eof ts.tail).verdict.andThen fun arg rest =>
          (moreArguments eof rest).verdict.map (arg :: ·)
      else .ok ([], ts) := by
  rw [moreArguments]
  cases h : expect eof .comma ts with
  | fail e rest =>
    rw [if_neg (peek_of_expect_fail eof h nofun)]
    rfl
  | ok t rest lt =>
    obtain ⟨hpeek, rfl⟩ := peek_of_expect_ok eof h
    simp only [if_pos hpeek, Outcome.verdict_weaken]
    exact Outcome.verdict_andMaybe fun _ _ _ => Outcome.verdict_map _ _

/-- An argument list is empty if a closing parenthesis follows. In every other case a first argument
is read, so that a missing parenthesis is reported from inside of the argument. -/
theorem verdict_arguments (ts : List Token) :
    (arguments eof ts).verdict =
      if peek ts = .rparen then .ok ([], ts)
      else
        (statement eof ts).verdict.andThen fun arg rest =>
          (moreArguments eof rest).verdict.map (arg :: ·) := by
  rw [arguments]
  split
  · rfl
  · rw [Outcome.verdict_weaken]
    exact Outcome.verdict_andMaybe fun _ _ _ => Outcome.verdict_map _ _

/-- A callee and at most one argument list: there is no loop here, and `f(x)(y)` is not a call of
`f(x)`. -/
theorem verdict_application (ts : List Token) :
    (application eof ts).verdict =
      (primary eof ts).verdict.andThen fun callee ts =>
        if peek ts = .lparen then
          (arguments eof ts.tail).verdict.andThen fun args ts =>
            (expect eof .rparen ts).verdict.map fun _ => .call callee args
        else .ok (callee, ts) := by
  rw [application]
  refine Outcome.verdict_andMaybe fun callee ts _ => ?_
  cases h : expect eof .lparen ts with
  | fail e rest =>
    rw [if_neg (peek_of_expect_fail eof h nofun)]
    rfl
  | ok t rest lt =>
    obtain ⟨hpeek, rfl⟩ := peek_of_expect_ok eof h
    simp only [if_pos hpeek, Outcome.verdict_weaken]
    exact Outcome.verdict_andThen fun _ _ _ => Outcome.verdict_map _ _

/-- A base and at most one exponent. The exponent is read by `unary`, which comes back to `power`,
and so `**` groups to the right and its exponent may have a sign. -/
theorem verdict_power (ts : List Token) :
    (power eof ts).verdict =
      (application eof ts).verdict.andThen fun base ts =>
        if peek ts = .power then (unary eof ts.tail).verdict.map (.binary .pow base)
        else .ok (base, ts) := by
  rw [power]
  refine Outcome.verdict_andMaybe fun base ts _ => ?_
  cases h : expect eof .power ts with
  | fail e rest =>
    rw [if_neg (peek_of_expect_fail eof h nofun)]
    rfl
  | ok t rest lt =>
    obtain ⟨hpeek, rfl⟩ := peek_of_expect_ok eof h
    simp only [if_pos hpeek, Outcome.verdict_weaken]
    exact Outcome.verdict_map _ _

/-- A sign is taken off, and signs may repeat. -/
theorem verdict_unary_sign {t : Token} {op : UnaryOp} (h : sign? t.kind = some op)
    (ts : List Token) : (unary eof (t :: ts)).verdict = (unary eof ts).verdict.map (.unary op) := by
  rw [unary]
  rcases sign?_eq_some h with hk | hk <;> rw [hk] at h ⊢ <;> cases h <;>
    exact (Outcome.verdict_weaken _ _).trans (Outcome.verdict_map _ _)

theorem verdict_unary_other {ts : List Token} (h : sign? (peek ts) = none) :
    (unary eof ts).verdict = (power eof ts).verdict := by
  cases ts with
  | nil => rw [unary]
  | cons t ts =>
    rw [unary]
    split
    · next hk => rw [peek_cons, hk] at h; cases h
    · next hk => rw [peek_cons, hk] at h; cases h
    · rfl

/-- An operation is its first operand and then the loop. The loop is where the layers of sums and
products come from, see below. -/
theorem verdict_operation (least : ℕ) (ts : List Token) :
    (operation eof least ts).verdict =
      (unary eof ts).verdict.andThen fun left ts => (operators eof least left ts).verdict := by
  rw [operation]
  exact Outcome.verdict_andMaybe fun _ _ _ => rfl

theorem verdict_statement_func {ts : List Token} (h : peek ts = .func) :
    (statement eof ts).verdict =
      (expect eof .func ts).verdict.andThen fun _ ts =>
        (expect eof .lparen ts).verdict.andThen fun _ ts =>
          (params eof ts).verdict.andThen fun names ts =>
            (expect eof .rparen ts).verdict.andThen fun _ ts =>
              (expect eof .arrow ts).verdict.andThen fun _ ts =>
                (statement eof ts).verdict.map (.func names) := by
  rw [statement, h]
  refine Outcome.verdict_andThen fun _ ts _ => ?_
  refine Outcome.verdict_andMaybe fun _ ts _ => ?_
  refine Outcome.verdict_andThen fun names ts _ => ?_
  refine Outcome.verdict_andThen fun _ ts _ => ?_
  refine Outcome.verdict_andThen fun _ ts _ => ?_
  exact Outcome.verdict_map _ _

theorem verdict_statement_let {ts : List Token} (h : peek ts = .kwLet) :
    (statement eof ts).verdict =
      (expect eof .kwLet ts).verdict.andThen fun _ ts =>
        (identifier eof ts).verdict.andThen fun name ts =>
          (expect eof .assign ts).verdict.andThen fun _ ts =>
            (statement eof ts).verdict.map (.declare name) := by
  rw [statement, h]
  refine Outcome.verdict_andThen fun _ ts _ => ?_
  refine Outcome.verdict_andThen fun name ts _ => ?_
  refine Outcome.verdict_andThen fun _ ts _ => ?_
  exact Outcome.verdict_map _ _

theorem verdict_statement_other {ts : List Token} (hfunc : peek ts ≠ .func)
    (hlet : peek ts ≠ .kwLet) : (statement eof ts).verdict = (operation eof 0 ts).verdict := by
  rw [statement]
  split
  · next h => exact absurd h hfunc
  · next h => exact absurd h hlet
  · rfl

/-! ### Operators

The loop over the operators compares two numbers, the power with which the next operator holds its
left side and the least power that the loop accepts. There are only two kinds of operators, those of
sums and those of products, and the grammar has a rule for each. The lemmas here replace the numbers
by the kinds: the loop stops, or a sum goes on, or a product does (`stops_or_operator`). No later
proof looks at the table of powers. -/

/-- The next token is no operator that holds its left side with a power of at least `least`. This
covers the tokens that are no operators at all. -/
def Stops (least : ℕ) (ts : List Token) : Prop :=
  ∀ l r, (peek ts).bindingPower? = some (l, r) → l < least

/-- The operators of sums are those with the powers 1 and 2. -/
theorem sumOp?_eq_some_iff {kind : TokenKind} {op : BinaryOp} :
    sumOp? kind = some op ↔
      kind.bindingPower? = some (1, 2) ∧ BinaryOp.ofToken? kind = some op := by
  cases kind <;> simp [sumOp?, TokenKind.bindingPower?, BinaryOp.ofToken?]

/-- The operators of products are those with the powers 3 and 4. -/
theorem productOp?_eq_some_iff {kind : TokenKind} {op : BinaryOp} :
    productOp? kind = some op ↔
      kind.bindingPower? = some (3, 4) ∧ BinaryOp.ofToken? kind = some op := by
  cases kind <;> simp [productOp?, TokenKind.bindingPower?, BinaryOp.ofToken?]

/-- The three ways in which the operators behind an operand can go on. They exclude each other, but
no proof needs that: each of the equations below has its way as the hypothesis. -/
theorem stops_or_operator (least : ℕ) (ts : List Token) :
    Stops least ts ∨
      (∃ t us op, ts = t :: us ∧ sumOp? t.kind = some op ∧ least ≤ 1) ∨
      ∃ t us op, ts = t :: us ∧ productOp? t.kind = some op ∧ least ≤ 3 := by
  cases ts with
  | nil => exact .inl fun l r h => nomatch h
  | cons t us =>
    cases hsum : sumOp? t.kind with
    | some op =>
      rcases Nat.lt_or_ge 1 least with hlt | hle
      · refine .inl fun l r h => ?_
        rw [peek_cons, (sumOp?_eq_some_iff.mp hsum).1] at h
        cases h
        exact hlt
      · exact .inr (.inl ⟨t, us, op, rfl, hsum, hle⟩)
    | none =>
      cases hproduct : productOp? t.kind with
      | some op =>
        rcases Nat.lt_or_ge 3 least with hlt | hle
        · refine .inl fun l r h => ?_
          rw [peek_cons, (productOp?_eq_some_iff.mp hproduct).1] at h
          cases h
          exact hlt
        · exact .inr (.inr ⟨t, us, op, rfl, hproduct, hle⟩)
      | none =>
        refine .inl fun l r h => ?_
        rw [peek_cons] at h
        cases hk : t.kind <;> simp_all [sumOp?, productOp?, TokenKind.bindingPower?]

theorem verdict_operators_of_stops {least : ℕ} {ts : List Token} (h : Stops least ts)
    (left : Expr) : (operators eof least left ts).verdict = .ok (left, ts) := by
  cases ts with
  | nil => rw [operators]; rfl
  | cons t ts =>
    rw [operators]
    split
    · next l r op hpower _ =>
      rw [if_pos (h l r hpower)]
      rfl
    · rfl

/-- An operator that is not stopped takes its right operand and goes on. -/
theorem verdict_operators_of_le {least l r : ℕ} {t : Token} {op : BinaryOp}
    (hpower : t.kind.bindingPower? = some (l, r)) (hop : BinaryOp.ofToken? t.kind = some op)
    (hle : least ≤ l) (left : Expr) (ts : List Token) :
    (operators eof least left (t :: ts)).verdict =
      (operation eof r ts).verdict.andThen fun right ts =>
        (operators eof least (.binary op left right) ts).verdict := by
  rw [operators, hpower, hop]
  simp only [if_neg (Nat.not_lt.mpr hle), Outcome.verdict_weaken]
  exact Outcome.verdict_andMaybe fun _ _ _ => rfl

/-- An operator of a sum takes its right operand with the power 2, which lets products in and keeps
sums out: this is how sums group to the left. -/
theorem verdict_operators_sum {least : ℕ} (hle : least ≤ 1) {t : Token} {op : BinaryOp}
    (hop : sumOp? t.kind = some op) (left : Expr) (ts : List Token) :
    (operators eof least left (t :: ts)).verdict =
      (operation eof 2 ts).verdict.andThen fun right ts =>
        (operators eof least (.binary op left right) ts).verdict :=
  have h := sumOp?_eq_some_iff.mp hop
  verdict_operators_of_le eof h.1 h.2 hle left ts

/-- An operator of a product takes its right operand with the power 4, which keeps every operator
out: products group to the left too, and hold tighter than sums. -/
theorem verdict_operators_product {least : ℕ} (hle : least ≤ 3) {t : Token} {op : BinaryOp}
    (hop : productOp? t.kind = some op) (left : Expr) (ts : List Token) :
    (operators eof least left (t :: ts)).verdict =
      (operation eof 4 ts).verdict.andThen fun right ts =>
        (operators eof least (.binary op left right) ts).verdict :=
  have h := productOp?_eq_some_iff.mp hop
  verdict_operators_of_le eof h.1 h.2 hle left ts

/-! ### Programs

The loop over the statements looks one token behind a line break. Another line break is skipped, the
end of the input ends the program, and anything else has to be a statement. -/

theorem verdict_moreStatements_of_ne {ts : List Token} (h : peek ts ≠ .newline) :
    (moreStatements eof ts).verdict = .ok ([], ts) := by
  rw [moreStatements]
  cases hexpect : expect eof .newline ts with
  | fail e rest => rfl
  | ok t rest lt => exact absurd (peek_of_expect_ok eof hexpect).1 h

/-- Behind a line break a statement is not optional: unless the input ends there, a token that
cannot start a statement is an error, and the error is that of the statement. -/
theorem verdict_moreStatements_newline {t : Token} (ht : t.kind = .newline) (ts : List Token) :
    (moreStatements eof (t :: ts)).verdict =
      if peek ts = .newline then (moreStatements eof ts).verdict
      else if peek ts = .eof then .ok ([], ts)
      else
        (statement eof ts).verdict.andThen fun e rest =>
          (moreStatements eof rest).verdict.map (e :: ·) := by
  rw [moreStatements]
  cases hexpect : expect eof .newline (t :: ts) with
  | fail e rest => exact absurd ht (peek_of_expect_fail eof hexpect nofun)
  | ok t' rest lt =>
    obtain ⟨-, rfl⟩ := peek_of_expect_ok eof hexpect
    simp only [List.tail_cons]
    split
    · next h => rw [if_pos h]; exact Outcome.verdict_weaken _ _
    · next h => rw [if_neg (by rw [h]; decide), if_pos h]; rfl
    · next hnewline hend =>
      rw [if_neg hnewline, if_neg hend]
      refine (Outcome.verdict_weaken _ _).trans ?_
      exact Outcome.verdict_andMaybe fun _ _ _ => Outcome.verdict_map _ _

/-- The end of the input is read whether it is listed or not, and it is consumed if it is. -/
theorem verdict_endOfInput_eq_ok {ts rest : List Token} :
    (endOfInput eof ts).verdict = .ok ((), rest) ↔ peek ts = .eof ∧ ts.tail = rest := by
  cases ts with
  | nil =>
    constructor
    · rintro ⟨⟩
      exact ⟨rfl, rfl⟩
    · rintro ⟨-, rfl⟩
      rfl
  | cons t ts =>
    rw [endOfInput, peek_cons]
    by_cases h : t.kind = .eof
    · rw [if_pos h]
      constructor
      · rintro ⟨⟩
        exact ⟨h, rfl⟩
      · rintro ⟨-, rfl⟩
        rfl
    · rw [if_neg h]
      constructor
      · intro hread
        cases hread
      · exact fun hend => absurd hend.1 h

theorem verdict_endOfInput_of_ne {ts : List Token} (h : peek ts ≠ .eof) :
    (endOfInput eof ts).verdict = .error (unexpected eof .eof ts, ts) := by
  cases ts with
  | nil => exact absurd rfl h
  | cons t ts =>
    have ht : t.kind ≠ .eof := h
    rw [endOfInput, if_neg ht]
    rfl

theorem verdict_program (ts : List Token) :
    (program eof ts).verdict =
      (statement eof ts).verdict.andThen fun first ts =>
        (moreStatements eof ts).verdict.andThen fun more ts =>
          (endOfInput eof ts).verdict.map fun _ => first :: more := by
  rw [program]
  refine Outcome.verdict_andMaybe fun first ts _ => ?_
  refine Outcome.verdict_andMaybe fun more ts _ => ?_
  exact Outcome.verdict_map _ _

end Parser

/-! ### Streams

What a stream reads is the verdict of its production, with the tokens that were not consumed put
back into the stream. -/

namespace TokenStream

open ArrowCalc.Parser

theorem readStatement_eq_of_verdict (s : TokenStream) :
    s.readStatement = match (statement s.eof s.tokens).verdict with
      | .ok (e, rest) => (.ok e, ⟨rest, s.eof⟩)
      | .error (e, rest) => (.error e, ⟨rest, s.eof⟩) := by
  rw [readStatement]
  cases statement s.eof s.tokens <;> rfl

theorem readProgram_eq_of_verdict (s : TokenStream) :
    s.readProgram = match (program s.eof s.tokens).verdict with
      | .ok (es, rest) => (.block es, ⟨rest, s.eof⟩)
      | .error (e, rest) => (.malformed e.message, ⟨rest, s.eof⟩) := by
  rw [readProgram]
  cases program s.eof s.tokens <;> rfl

end TokenStream

end ArrowCalc
