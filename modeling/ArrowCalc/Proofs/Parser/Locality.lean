import ArrowCalc.Proofs.Parser.Verdict

/-!
# One token of lookahead

A production looks at the tokens that it consumes and at the kind of the next one. Whatever stands
behind that token has no influence: on another list that begins in the same way, the production
stops at the same place, with the same value or with an error again.

For a person at a prompt this is what makes an error final. Nothing that is typed behind the
offending token can turn the input into a program, so that the tokens up to the error can be
dropped.

## What is compared

The productions are run on two lists, `ts = pre ++ rest` and `pre ++ rest'`, where `pre` is what the
production consumes on the first one and `rest'` starts with a token of the same kind as `rest`. The
values have to be equal. The errors need not be: an error carries the span of the token it was found
at, and the two lists may have different tokens there. So `Alike` compares values and only asks that
errors meet errors.

Which part of `ts` is consumed is not known beforehand. `Local` says that there is such a part, and
that the two lists agree on it and on the next kind is enough. The kind of the next token is needed
because every production that ends at an optional part looks at it.

## How the productions are put together

The rules for single tokens and for sequences are stated for plain functions to verdicts. There are
four of them: a value that costs nothing, a token that is asked for, one production behind another,
and two productions that agree whenever the next kind is the same (`Local.congr`). The last one is
how a decision is made. In front of tokens with the next kind of `ts`, a production that decides by
this kind is the branch it takes on `ts`.

The productions follow from these rules along the circle in which they call each other: a production
is local at `n` tokens if those that start over are local at fewer (`LocalBelow`).

## Main definitions

* `Parser.Local` — what is made of the tokens depends on the consumed ones and on the next kind

## Main results

* `Parser.Local.andThen` — productions in sequence
* `Parser.localBelow` — the productions are local
* `Parser.program_error_of_peek` — a failed program fails whatever follows the offending token
-/

namespace ArrowCalc

namespace Parser

open Grammar

variable {α β : Type}

/-! ### Local productions -/

/-- One verdict was reached in front of `rest` and the other in front of `rest'`, and both are the
same value or both are errors. The errors may differ, in the span of the token they were found at.
-/
inductive Alike (v v' : Verdict α) (rest rest' : List Token) : Prop where
  | ok (a : α) (h : v = .ok (a, rest)) (h' : v' = .ok (a, rest'))
  | error (e e' : SyntaxError) (h : v = .error (e, rest)) (h' : v' = .error (e', rest'))

/-- A value tells where the production stopped, and that it does so on the other list too. -/
theorem Alike.of_ok {v v' : Verdict α} {rest rest' us : List Token} {a : α}
    (h : Alike v v' rest rest') (hv : v = .ok (a, us)) : us = rest ∧ v' = .ok (a, rest') := by
  cases h with
  | ok b h₁ h₂ =>
    rw [hv] at h₁
    cases h₁
    exact ⟨rfl, h₂⟩
  | error _ _ h₁ _ =>
    rw [hv] at h₁
    cases h₁

theorem Alike.of_error {v v' : Verdict α} {rest rest' us : List Token} {e : SyntaxError}
    (h : Alike v v' rest rest') (hv : v = .error (e, us)) :
    us = rest ∧ ∃ e', v' = .error (e', rest') := by
  cases h with
  | ok _ h₁ _ =>
    rw [hv] at h₁
    cases h₁
  | error e₁ e₂ h₁ h₂ =>
    rw [hv] at h₁
    cases h₁
    exact ⟨rfl, e₂, h₂⟩

/-- On `ts`, the production `p` consumes a beginning of the tokens, and it would do the same with
this beginning in front of any other token of the next kind.

The case `rest' = rest` is among them and says where `p` stops on `ts` itself. -/
def Local (p : List Token → Verdict α) (ts : List Token) : Prop :=
  ∃ pre rest, ts = pre ++ rest ∧
    ∀ rest', peek rest' = peek rest → Alike (p ts) (p (pre ++ rest')) rest rest'

/-- The next kind is that of the first token, which is one of `pre` unless `pre` is empty. -/
theorem peek_append_congr {rest rest' : List Token} (h : peek rest' = peek rest)
    (pre : List Token) : peek (pre ++ rest') = peek (pre ++ rest) := by
  cases pre with
  | nil => exact h
  | cons t pre => rfl

theorem local_ok (a : α) (ts : List Token) : Local (fun ts => .ok (a, ts)) ts :=
  ⟨[], ts, rfl, fun _ _ => .ok a rfl rfl⟩

theorem local_error (e : SyntaxError) (ts : List Token) :
    Local (fun ts => (.error (e, ts) : Verdict α)) ts :=
  ⟨[], ts, rfl, fun _ _ => .error e e rfl rfl⟩

/-- Two productions that agree wherever the next kind is that of `ts` are local on `ts` together.
This takes a production to the branch of it that the next kind selects. -/
theorem Local.congr {p q : List Token → Verdict α} {ts : List Token} (h : Local q ts)
    (hpq : ∀ us, peek us = peek ts → p us = q us) : Local p ts := by
  obtain ⟨pre, rest, rfl, hrest⟩ := h
  refine ⟨pre, rest, rfl, fun rest' hpeek => ?_⟩
  rw [hpq _ rfl, hpq _ (peek_append_congr hpeek pre)]
  exact hrest rest' hpeek

/-- A production behind another one. The second production is asked about only for the value that
the first one has on `ts`: on the other list the first one has the same value, because the token
behind its part is the first token of the second part and thus of the same kind. -/
theorem Local.andThen {p : List Token → Verdict α} {q : α → List Token → Verdict β}
    {ts : List Token} (hp : Local p ts) (hq : ∀ a us, p ts = .ok (a, us) → Local (q a) us) :
    Local (fun ts => (p ts).andThen q) ts := by
  obtain ⟨pre, us, rfl, hpre⟩ := hp
  cases hv : p (pre ++ us) with
  | error x =>
    obtain ⟨e, vs⟩ := x
    refine ⟨pre, us, rfl, fun rest' hpeek => ?_⟩
    obtain ⟨rfl, e', h'⟩ := (hpre rest' hpeek).of_error hv
    exact .error e e' (congrArg (Verdict.andThen · q) hv) (congrArg (Verdict.andThen · q) h')
  | ok x =>
    obtain ⟨a, vs⟩ := x
    obtain ⟨rfl, -⟩ := (hpre us rfl).of_ok hv
    -- the second production takes over here, and what it consumes is consumed in all
    obtain ⟨mid, rest, rfl, hmid⟩ := hq a vs hv
    refine ⟨pre ++ mid, rest, (List.append_assoc ..).symm, fun rest' hpeek => ?_⟩
    obtain ⟨-, hnext⟩ := (hpre (mid ++ rest') (peek_append_congr hpeek mid)).of_ok hv
    rw [List.append_assoc]
    simp only [hv, hnext, Verdict.andThen_ok]
    exact hmid rest' hpeek

theorem Local.map {p : List Token → Verdict α} {ts : List Token} (hp : Local p ts) (f : α → β) :
    Local (fun ts => (p ts).map f) ts :=
  hp.andThen fun a us _ => local_ok (f a) us

variable {eof : Span}

/-- A token that is asked for. If it is there, it is consumed and nothing else is looked at; if it
is not, its kind is what made the difference. The end of the input is not consumed and is excluded.
-/
theorem local_expect {wanted : TokenKind} (hw : wanted ≠ .eof) (ts : List Token) :
    Local (fun ts => (expect eof wanted ts).verdict) ts := by
  by_cases hpeek : peek ts = wanted
  · cases ts with
    | nil => exact absurd hpeek.symm hw
    | cons t ts =>
      refine ⟨[t], ts, rfl, fun rest' _ => .ok t ?_ ?_⟩
      · exact verdict_expect_of_kind eof hpeek ts
      · exact verdict_expect_of_kind eof hpeek rest'
  · refine ⟨[], ts, rfl, fun rest' hrest => ?_⟩
    have hpeek' : peek rest' ≠ wanted := by rwa [hrest]
    exact .error _ _ (verdict_expect_of_ne eof hpeek) (verdict_expect_of_ne eof hpeek')

/-- Behind a token of the kind that was peeked at. The production drops the token without asking for
it again, and is compared with one that does ask. -/
theorem local_tail {q : List Token → Verdict β} (ts : List Token) {kind : TokenKind}
    (hpeek : peek ts = kind) (hkind : kind ≠ .eof) (hq : Local q ts.tail) :
    Local (fun ts => q ts.tail) ts := by
  have hexpect : Local (fun ts => (expect (.point 0 0) kind ts).verdict.andThen fun _ us => q us)
      ts := by
    refine (local_expect hkind ts).andThen fun t us h => ?_
    obtain ⟨rfl, -⟩ := (verdict_expect_eq_ok _).mp h
    exact hq
  refine hexpect.congr fun us hus => ?_
  cases us with
  | nil => exact absurd (hpeek.symm.trans hus.symm) hkind
  | cons t us =>
    rw [verdict_expect_of_kind _ (hus.trans hpeek)]
    rfl

theorem local_expectPayload {wanted : TokenKind} (hw : wanted ≠ .eof) (get? : Token → Option α)
    (ts : List Token) : Local (fun ts => (expectPayload eof wanted get? ts).verdict) ts := by
  simp only [verdict_expectPayload]
  refine (local_expect hw ts).andThen fun t us _ => ?_
  cases get? t with
  | none => exact local_error _ us
  | some a => exact local_ok a us

/-- A loop over items behind commas. The induction is on a bound for the number of tokens, below
which the items are local: an item costs tokens, so that the loop goes on below the bound. -/
theorem local_items {item : List Token → Verdict α} {more : List Token → Verdict (List α)}
    (hmore : ∀ ts, more ts =
      if peek ts = .comma then
        (item ts.tail).andThen fun a rest => (more rest).map (a :: ·)
      else .ok ([], ts))
    {n : ℕ} (hitem : ∀ ts, ts.length < n → Local item ts)
    (hlt : ∀ {ts a rest}, item ts = .ok (a, rest) → rest.length < ts.length) {ts : List Token}
    (hts : ts.length ≤ n) : Local more ts := by
  induction n generalizing ts with
  | zero =>
    obtain rfl := List.length_eq_zero_iff.mp (Nat.le_zero.mp hts)
    refine (local_ok [] []).congr fun us hus => ?_
    rw [hmore, if_neg (by rw [hus]; decide)]
  | succ n ih =>
    by_cases hcomma : peek ts = .comma
    · have htail : ts.tail.length ≤ n := by
        rw [List.length_tail]
        omega
      have hnext : Local (fun ts => (item ts).andThen fun a rest => (more rest).map (a :: ·))
          ts.tail := by
        refine (hitem _ (Nat.lt_succ_of_le htail)).andThen fun a rest ha => ?_
        refine Local.map (ih (fun us hus => hitem us (Nat.lt_succ_of_lt hus)) ?_) _
        exact Nat.le_trans (Nat.le_of_lt (hlt ha)) htail
      refine (local_tail _ hcomma (by decide) hnext).congr fun us hus => ?_
      rw [hmore, if_pos (hus.trans hcomma)]
    · refine (local_ok [] ts).congr fun us hus => ?_
      rw [hmore, if_neg (by rwa [hus])]

/-! ### Parameter lists -/

theorem local_identifier (ts : List Token) : Local (fun ts => (identifier eof ts).verdict) ts :=
  local_expectPayload (by decide) _ ts

theorem local_params (ts : List Token) : Local (fun ts => (params eof ts).verdict) ts := by
  by_cases hident : peek ts = .ident
  · have hlist : Local (fun ts => (identifier eof ts).verdict.andThen fun name rest =>
        (moreParams eof rest).verdict.map (name :: ·)) ts := by
      refine (local_identifier ts).andThen fun name us _ => Local.map ?_ _
      exact local_items (verdict_moreParams eof) (fun us _ => local_identifier us)
        (fun h => Outcome.length_lt_of_verdict h) (Nat.le_refl _)
    refine hlist.congr fun us hus => ?_
    rw [verdict_params, if_pos (hus.trans hident)]
  · refine (local_ok [] ts).congr fun us hus => ?_
    rw [verdict_params, if_neg (by rwa [hus])]

/-! ### Expressions

Each production is its equation from the module on verdicts, read with the rules above. Where an
equation decides by the next token the proof splits on its kind, and `Local.congr` takes the
production to the branch. -/

variable (eof) in
/-- The productions that start over are local on fewer than `n` tokens. These three are the ones
that are called behind a token; the others are called on the same tokens by the production above
them. -/
structure LocalBelow (n : ℕ) : Prop where
  statement (ts : List Token) (h : ts.length < n) : Local (fun ts => (statement eof ts).verdict) ts
  operation (least : ℕ) (ts : List Token) (h : ts.length < n) :
    Local (fun ts => (operation eof least ts).verdict) ts
  unary (ts : List Token) (h : ts.length < n) : Local (fun ts => (unary eof ts).verdict) ts

variable {n : ℕ} (hn : LocalBelow eof n) {ts : List Token}

include hn

theorem local_primary (hts : ts.length ≤ n) : Local (fun ts => (primary eof ts).verdict) ts := by
  by_cases hident : peek ts = .ident
  · exact ((local_identifier ts).map .var).congr fun us hus =>
      verdict_primary_ident eof (hus.trans hident)
  by_cases hint : peek ts = .int
  · exact ((local_expectPayload (by decide) Token.int? ts).map .int).congr fun us hus =>
      verdict_primary_int eof (hus.trans hint)
  · have hparen : Local (fun ts => (expect eof .lparen ts).verdict.andThen fun _ ts =>
        (statement eof ts).verdict.andThen fun inner ts =>
          (expect eof .rparen ts).verdict.map fun _ => Expr.paren inner) ts := by
      refine (local_expect (by decide) ts).andThen fun _ us h => ?_
      have hlt := Outcome.length_lt_of_verdict h
      refine (hn.statement us (by omega)).andThen fun inner vs _ => ?_
      exact (local_expect (by decide) vs).map _
    exact hparen.congr fun us hus =>
      verdict_primary_other eof (by rwa [hus]) (by rwa [hus])

/-- The arguments are behind the opening parenthesis of a call already, hence the strict bound. -/
theorem local_arguments (hts : ts.length < n) :
    Local (fun ts => (arguments eof ts).verdict) ts := by
  by_cases hclose : peek ts = .rparen
  · refine (local_ok [] ts).congr fun us hus => ?_
    rw [verdict_arguments, if_pos (hus.trans hclose)]
  · have hlist : Local (fun ts => (statement eof ts).verdict.andThen fun arg rest =>
        (moreArguments eof rest).verdict.map (arg :: ·)) ts := by
      refine (hn.statement ts hts).andThen fun arg us h => Local.map ?_ _
      have hlt := Outcome.length_lt_of_verdict h
      exact local_items (verdict_moreArguments eof) hn.statement
        (fun h => Outcome.length_lt_of_verdict h) (by omega)
    refine hlist.congr fun us hus => ?_
    rw [verdict_arguments, if_neg (by rwa [hus])]

theorem local_application (hts : ts.length ≤ n) :
    Local (fun ts => (application eof ts).verdict) ts := by
  simp only [verdict_application]
  refine (local_primary hn hts).andThen fun callee us h => ?_
  have hlt := Outcome.length_lt_of_verdict h
  by_cases hopen : peek us = .lparen
  · have hcall : Local (fun ts => (arguments eof ts).verdict.andThen fun args ts =>
        (expect eof .rparen ts).verdict.map fun _ => Expr.call callee args) us.tail := by
      refine (local_arguments hn ?_).andThen fun args vs _ => (local_expect (by decide) vs).map _
      rw [List.length_tail]
      omega
    exact (local_tail _ hopen (by decide) hcall).congr fun vs hvs => if_pos (hvs.trans hopen)
  · exact (local_ok callee us).congr fun vs hvs => if_neg (by rwa [hvs])

theorem local_power (hts : ts.length ≤ n) : Local (fun ts => (power eof ts).verdict) ts := by
  simp only [verdict_power]
  refine (local_application hn hts).andThen fun base us h => ?_
  have hlt := Outcome.length_lt_of_verdict h
  by_cases hop : peek us = .power
  · have hexponent := (hn.unary us.tail (by rw [List.length_tail]; omega)).map
      (Expr.binary .pow base)
    exact (local_tail _ hop (by decide) hexponent).congr fun vs hvs => if_pos (hvs.trans hop)
  · exact (local_ok base us).congr fun vs hvs => if_neg (by rwa [hvs])

/-- A sign is dropped, and it is the kind of the sign and not the token that decides which operator
it stands for. -/
theorem local_unary (hts : ts.length ≤ n) : Local (fun ts => (unary eof ts).verdict) ts := by
  cases hsign : sign? (peek ts) with
  | none =>
    exact (local_power hn hts).congr fun us hus => verdict_unary_other eof (by rwa [hus])
  | some op =>
    cases ts with
    | nil => cases hsign
    | cons t ts =>
      have hoperand := (hn.unary ts (Nat.lt_of_succ_le hts)).map (Expr.unary op)
      have hkind : (peek (t :: ts)) ≠ .eof := fun h => by rw [h] at hsign; cases hsign
      refine (local_tail _ rfl hkind hoperand).congr fun us hus => ?_
      cases us with
      | nil => exact absurd hus.symm hkind
      | cons u us => exact verdict_unary_sign eof (by rwa [← hus] at hsign) us

/-- The loop over the operators. The operand so far is part of the value and not of the tokens, so
the induction is on the number of tokens, for every operand. -/
theorem local_operators (least : ℕ) (left : Expr) (hts : ts.length ≤ n) :
    Local (fun ts => (operators eof least left ts).verdict) ts := by
  induction hlen : ts.length using Nat.strongRecOn generalizing left ts with
  | _ len ih =>
    -- an operator that is not stopped takes its right operand, and the loop goes on behind it
    have hstep : ∀ {t : Token} {us : List Token} {l r : ℕ} {op : BinaryOp}, ts = t :: us →
        t.kind.bindingPower? = some (l, r) → BinaryOp.ofToken? t.kind = some op → least ≤ l →
        Local (fun ts => (operators eof least left ts).verdict) ts := by
      rintro t us l r op rfl hpower hop hle
      rw [List.length_cons] at hlen hts
      have hkind : t.kind ≠ .eof := fun h => by rw [h] at hop; cases hop
      have hnext : Local (fun ts => (operation eof r ts).verdict.andThen fun right ws =>
          (operators eof least (.binary op left right) ws).verdict) us := by
        refine (hn.operation r us (by omega)).andThen fun right vs h => ?_
        have hlt := Outcome.length_lt_of_verdict h
        exact ih vs.length (by omega) _ (by omega) rfl
      refine (local_tail (t :: us) rfl hkind hnext).congr fun vs hvs => ?_
      cases vs with
      | nil => exact absurd hvs.symm hkind
      | cons u vs =>
        have hu : u.kind = t.kind := hvs
        exact verdict_operators_of_le eof (by rwa [hu]) (by rwa [hu]) hle left vs
    rcases stops_or_operator least ts with hstops | ⟨t, us, op, rfl, hop, hle⟩ |
      ⟨t, us, op, rfl, hop, hle⟩
    · refine (local_ok left ts).congr fun us hus => verdict_operators_of_stops eof ?_ left
      intro l r hpower
      exact hstops l r (by rwa [← hus])
    · obtain ⟨hpower, hop⟩ := sumOp?_eq_some_iff.mp hop
      exact hstep rfl hpower hop hle
    · obtain ⟨hpower, hop⟩ := productOp?_eq_some_iff.mp hop
      exact hstep rfl hpower hop hle

theorem local_operation (least : ℕ) (hts : ts.length ≤ n) :
    Local (fun ts => (operation eof least ts).verdict) ts := by
  simp only [verdict_operation]
  refine (local_unary hn hts).andThen fun left us h => local_operators hn least left ?_
  have hlt := Outcome.length_lt_of_verdict h
  omega

theorem local_statement (hts : ts.length ≤ n) :
    Local (fun ts => (statement eof ts).verdict) ts := by
  by_cases hfunc : peek ts = .func
  · refine Local.congr ?_ fun us hus => verdict_statement_func eof (hus.trans hfunc)
    refine (local_expect (by decide) ts).andThen fun _ us h => ?_
    refine (local_expect (by decide) us).andThen fun _ vs h₁ => ?_
    refine (local_params vs).andThen fun names ws h₂ => ?_
    refine (local_expect (by decide) ws).andThen fun _ xs h₃ => ?_
    refine (local_expect (by decide) xs).andThen fun _ ys h₄ => ?_
    have hlt := Outcome.length_lt_of_verdict h
    have hlt₁ := Outcome.length_lt_of_verdict h₁
    have hlt₂ := Outcome.length_lt_of_verdict h₂
    have hlt₃ := Outcome.length_lt_of_verdict h₃
    have hlt₄ := Outcome.length_lt_of_verdict h₄
    exact (hn.statement ys (by omega)).map _
  by_cases hlet : peek ts = .kwLet
  · refine Local.congr ?_ fun us hus => verdict_statement_let eof (hus.trans hlet)
    refine (local_expect (by decide) ts).andThen fun _ us h => ?_
    refine (local_identifier us).andThen fun name vs h₁ => ?_
    refine (local_expect (by decide) vs).andThen fun _ ws h₂ => ?_
    have hlt := Outcome.length_lt_of_verdict h
    have hlt₁ := Outcome.length_lt_of_verdict h₁
    have hlt₂ := Outcome.length_lt_of_verdict h₂
    exact (hn.statement ws (by omega)).map _
  · exact (local_operation hn 0 hts).congr fun us hus =>
      verdict_statement_other eof (by rwa [hus]) (by rwa [hus])

omit hn

variable (eof) in
/-- **The productions are local**, on any number of tokens. -/
theorem localBelow (n : ℕ) : LocalBelow eof n := by
  induction n with
  | zero =>
    exact ⟨fun _ h => absurd h (Nat.not_lt_zero _), fun _ _ h => absurd h (Nat.not_lt_zero _),
      fun _ h => absurd h (Nat.not_lt_zero _)⟩
  | succ n ih =>
    exact ⟨fun _ h => local_statement ih (Nat.le_of_lt_succ h),
      fun least _ h => local_operation ih least (Nat.le_of_lt_succ h),
      fun _ h => local_unary ih (Nat.le_of_lt_succ h)⟩

/-! ### Programs

The end of the input is not a token that is asked for, and a program is not local as a whole: it
consumes the end of the input if it is listed and otherwise nothing. Its statements are, and this is
enough for errors. -/

/-- The loop over the statements looks at the token behind a line break before it decides, so that
the proof splits twice. -/
theorem local_moreStatements (ts : List Token) :
    Local (fun ts => (moreStatements eof ts).verdict) ts := by
  induction hlen : ts.length using Nat.strongRecOn generalizing ts with
  | _ len ih =>
    by_cases hnewline : peek ts = .newline
    · cases ts with
      | nil => cases hnewline
      | cons t ts =>
        rw [List.length_cons] at hlen
        -- what is done behind the line break is local at the token that comes next
        have hnext : Local (fun ts =>
            if peek ts = .newline then (moreStatements eof ts).verdict
            else if peek ts = .eof then .ok ([], ts)
            else
              (statement eof ts).verdict.andThen fun e rest =>
                (moreStatements eof rest).verdict.map (e :: ·)) ts := by
          by_cases hagain : peek ts = .newline
          · exact (ih ts.length (by omega) ts rfl).congr fun us hus =>
              if_pos (hus.trans hagain)
          by_cases hend : peek ts = .eof
          · refine (local_ok [] ts).congr fun us hus => ?_
            rw [if_neg (by rwa [hus]), if_pos (hus.trans hend)]
          · have hmore : Local (fun ts => (statement eof ts).verdict.andThen fun e rest =>
                (moreStatements eof rest).verdict.map (e :: ·)) ts := by
              refine ((localBelow eof _).statement ts (Nat.lt_succ_self _)).andThen
                fun e us h => Local.map ?_ _
              have hlt := Outcome.length_lt_of_verdict h
              exact ih us.length (by omega) us rfl
            refine hmore.congr fun us hus => ?_
            rw [if_neg (by rwa [hus]), if_neg (by rwa [hus])]
        refine (local_tail _ hnewline (by decide) hnext).congr fun us hus => ?_
        cases us with
        | nil => exact absurd (hus.trans hnewline) (by decide)
        | cons u us => exact verdict_moreStatements_newline eof (hus.trans hnewline) us
    · exact (local_ok [] ts).congr fun us hus =>
        verdict_moreStatements_of_ne eof (by rwa [hus])

variable (eof) in
/-- The statements of a program, without the end of the input. -/
def statements (ts : List Token) : Verdict (List Expr) :=
  (statement eof ts).verdict.andThen fun first us =>
    (moreStatements eof us).verdict.map (first :: ·)

theorem verdict_program_eq_statements (ts : List Token) :
    (program eof ts).verdict =
      (statements eof ts).andThen fun es us => (endOfInput eof us).verdict.map fun _ => es := by
  rw [verdict_program, statements]
  rcases (statement eof ts).verdict with _ | ⟨first, us⟩
  · rfl
  · simp only [Verdict.andThen_ok]
    rcases (moreStatements eof us).verdict with _ | ⟨more, vs⟩ <;> rfl

variable (eof) in
/-- What a program reads in front of the end of the input is read locally. -/
theorem local_statements (ts : List Token) : Local (statements eof) ts :=
  ((localBelow eof _).statement ts (Nat.lt_succ_self _)).andThen fun _ us _ =>
    (local_moreStatements us).map _

/-- **A failed program fails for good.** It fails at the same place on every list that agrees with
it up to the kind of the offending token. -/
theorem program_error_of_peek {ts rest : List Token} {e : SyntaxError}
    (h : (program eof ts).verdict = .error (e, rest)) :
    ∃ pre, ts = pre ++ rest ∧ ∀ rest', peek rest' = peek rest →
      ∃ e', (program eof (pre ++ rest')).verdict = .error (e', rest') := by
  obtain ⟨pre, us, rfl, hpre⟩ := local_statements eof ts
  rw [verdict_program_eq_statements, Verdict.andThen_eq_error] at h
  rcases h with h | ⟨es, vs, hes, h⟩
  · obtain ⟨rfl, -⟩ := (hpre us rfl).of_error h
    refine ⟨pre, rfl, fun rest' hpeek => ?_⟩
    obtain ⟨-, e', h'⟩ := (hpre rest' hpeek).of_error h
    exact ⟨e', by rw [verdict_program_eq_statements, h']; rfl⟩
  · -- the statements were read, so it is the end of the input that is missing
    obtain ⟨rfl, -⟩ := (hpre us rfl).of_ok hes
    rw [Verdict.map_eq_error] at h
    have hend : peek vs ≠ .eof := by
      intro hend
      rw [(verdict_endOfInput_eq_ok eof).mpr ⟨hend, rfl⟩] at h
      cases h
    rw [verdict_endOfInput_of_ne eof hend] at h
    cases h
    refine ⟨pre, rfl, fun rest' hpeek => ?_⟩
    obtain ⟨-, hes'⟩ := (hpre rest' hpeek).of_ok hes
    rw [verdict_program_eq_statements, hes', Verdict.andThen_ok,
      verdict_endOfInput_of_ne eof (by rwa [hpeek])]
    exact ⟨_, rfl⟩

end Parser

end ArrowCalc
