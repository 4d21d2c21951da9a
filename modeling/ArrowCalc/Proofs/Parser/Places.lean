import ArrowCalc.Proofs.Parser.Locality
import ArrowCalc.Proofs.WellFormed

/-!
# Places do not matter

A token says where it stands, and so does a syntax error. Neither the marker nor the parser looks at
it: on tokens of which the places are taken away they do the same as before, and what they give
differs in the places only. Since the message of a syntax error does not mention its place, two
lists of tokens with the same kinds and payloads have the same tree.

## Why one list at a time

The result is about two lists that differ in their places. To follow both through the marker and the
parser would mean to carry a relation between two runs. Instead every list is compared with one and
the same list, its own tokens at the place `Span.nowhere`, and what a function does there is what it
does on the list itself, with the places taken away: the function commutes with `bare`. Two lists
with the same kinds and payloads have the same bare list, and the result follows.

## The two parts

The marker is followed through its states: its lookahead, one step, and any number of steps. The
productions of the parser are followed through the equations of their verdicts, along the circle in
which they call each other, as in the proof that they are local. The rules for sequences and
decisions are simpler here, because a production that decides by the kind of the next token decides
in the same way on bare tokens.

## Main definitions

* `Token.bare`, `TokenStream.bare` — tokens without their places
* `Parser.Blind` — a production commutes with taking the places away

## Main results

* `TokenStream.marked_bare` — marking commutes with taking the places away
* `Parser.blindBelow` — so do the productions
* `TokenStream.readProgram_congr`, `TokenStream.marked_congr` — only kinds and payloads matter
-/

namespace ArrowCalc

/-! ### Tokens without places -/

/-- The place that all bare tokens have. -/
def Span.nowhere : Span := .point 0 0

/-- The token without its place. -/
def Token.bare (t : Token) : Token := { t with span := .nowhere }

theorem map_bare_eq_of_content {ts us : List Token}
    (h : ts.map Token.content = us.map Token.content) : ts.map Token.bare = us.map Token.bare := by
  have hbare : Token.bare = (fun content => (⟨content.1, content.2, .nowhere⟩ : Token)) ∘
      Token.content := rfl
  rw [hbare, ← List.map_map, h, List.map_map]

theorem map_content_bare (ts : List Token) :
    (ts.map Token.bare).map Token.content = ts.map Token.content := by
  rw [List.map_map]
  rfl

/-- The stream without the places of its tokens and of its end. -/
def TokenStream.bare (s : TokenStream) : TokenStream := ⟨s.tokens.map Token.bare, .nowhere⟩

/-! ### The marker -/

namespace Lookahead

/-- A lookahead without places. -/
def bare (b : Lookahead) : Lookahead := ⟨b.ahead.map Token.bare, b.stream.bare⟩

theorem pop_bare (b : Lookahead) : b.bare.pop = (b.pop.1.bare, b.pop.2.bare) := by
  obtain ⟨_ | ⟨t, ts⟩, ⟨_ | ⟨u, us⟩, eof⟩⟩ := b <;> rfl

/-- The scan for the arrow behind a closing parenthesis looks at kinds only. The induction is the
recursion of `scan`: it ends, finds the parenthesis, or goes on at another depth. -/
theorem scan_bare (depth : ℤ) (b : Lookahead) :
    b.bare.scan depth = ((b.scan depth).1, (b.scan depth).2.bare) := by
  fun_induction scan depth b with
  | case1 depth b t rest hend =>
    rw [scan, dif_pos (by rwa [pop_bare]), pop_bare]
    rfl
  | case2 depth b t rest hend depth' hclose u =>
    rw [scan, dif_neg (by rwa [pop_bare]), pop_bare]
    refine (if_pos hclose).trans ?_
    show (decide (rest.bare.pop.1.kind = .arrow), (rest.bare.pop.2.push _).push t.bare) = _
    rw [pop_bare]
    rfl
  | case3 depth b t rest hend depth' hopen found rest' hscan ih =>
    rw [hscan] at ih
    rw [scan, dif_neg (by rwa [pop_bare]), pop_bare]
    refine (if_neg hopen).trans ?_
    show ((rest.bare.scan depth').1, ((rest.bare.scan depth').2.push t.bare)) = _
    rw [ih]
    rfl

end Lookahead

namespace Marker

/-- A marker without places. -/
def bare (m : Marker) : Marker := ⟨m.tokens.bare, m.pending.map Token.bare⟩

/-- One step of the marker. A token that is held back is given out as it is; otherwise the next kind
decides, and in front of a parenthesis the scan does. -/
theorem next_bare (m : Marker) : m.bare.next = (m.next.1.bare, m.next.2.bare) := by
  obtain ⟨b, _ | t⟩ := m
  · by_cases hparen : b.pop.1.kind = .lparen
    · have hparen' : b.bare.pop.1.kind = .lparen := by rwa [Lookahead.pop_bare]
      rcases hscan : b.pop.2.scan 1 with ⟨found, c⟩
      have hscan' : b.bare.pop.2.scan 1 = (found, c.bare) := by
        rw [Lookahead.pop_bare, Lookahead.scan_bare, hscan]
      have hnext : next ⟨b.bare, none⟩ = _ := next_of_scan hparen' hscan'
      rw [next_of_scan hparen hscan]
      refine hnext.trans ?_
      rw [Lookahead.pop_bare]
      cases found <;> rfl
    · have hparen' : b.bare.pop.1.kind ≠ .lparen := by rwa [Lookahead.pop_bare]
      have hnext : next ⟨b.bare, none⟩ = _ := next_of_ne hparen'
      rw [next_of_ne hparen]
      refine hnext.trans ?_
      rw [Lookahead.pop_bare]
      rfl
  · rfl

theorem take_bare (n : ℕ) (m : Marker) : m.bare.take n = (m.take n).map Token.bare := by
  induction n generalizing m with
  | zero => rfl
  | succ n ih =>
    rw [take, take, next_bare, ih]
    rfl

end Marker

namespace TokenStream

/-- Marking commutes with taking the places away. -/
theorem marked_bare (s : TokenStream) : s.bare.marked = s.marked.bare := by
  have htake : (Marker.ofStream s.bare).take (2 * s.bare.tokens.length) =
      ((Marker.ofStream s).take (2 * s.tokens.length)).map Token.bare := by
    rw [bare, List.length_map]
    exact Marker.take_bare _ (Marker.ofStream s)
  rw [marked, htake, List.takeWhile_map]
  rfl

end TokenStream

namespace Parser

open Grammar

variable {α β : Type}

/-! ### Blind productions -/

/-- The verdict without places. -/
def Verdict.bare : Verdict α → Verdict α
  | .ok (a, rest) => .ok (a, rest.map Token.bare)
  | .error (e, rest) => .error ({ e with span := .nowhere }, rest.map Token.bare)

/-- On `ts`, the production commutes with taking the places away. The end of the input has a place
too, and the production is given it as an argument. -/
def Blind (p : Span → List Token → Verdict α) (ts : List Token) : Prop :=
  ∀ eof, p .nowhere (ts.map Token.bare) = (p eof ts).bare

theorem peek_bare (ts : List Token) : peek (ts.map Token.bare) = peek ts := by
  cases ts <;> rfl

theorem blind_ok (a : α) (ts : List Token) : Blind (fun _ ts => .ok (a, ts)) ts := fun _ => rfl

/-- Two productions that agree wherever the next kind is that of `ts` are blind on `ts` together. -/
theorem Blind.congr {p q : Span → List Token → Verdict α} {ts : List Token} (h : Blind q ts)
    (hpq : ∀ eof us, peek us = peek ts → p eof us = q eof us) : Blind p ts := by
  intro eof
  rw [hpq _ _ (peek_bare ts), hpq _ _ rfl]
  exact h eof

/-- A production behind another one. The values do not carry places, so that the second production
is the same one on the bare tokens. -/
theorem Blind.andThen {p : Span → List Token → Verdict α} {q : α → Span → List Token → Verdict β}
    {ts : List Token} (hp : Blind p ts)
    (hq : ∀ eof a us, p eof ts = .ok (a, us) → Blind (q a) us) :
    Blind (fun eof ts => (p eof ts).andThen fun a us => q a eof us) ts := by
  intro eof
  have hbare := hp eof
  cases hv : p eof ts with
  | error x =>
    rw [hv] at hbare
    simp only [hv, hbare]
    rfl
  | ok x =>
    obtain ⟨a, us⟩ := x
    rw [hv] at hbare
    simp only [hv, hbare]
    exact hq eof a us hv eof

theorem Blind.map {p : Span → List Token → Verdict α} {ts : List Token} (hp : Blind p ts)
    (f : α → β) : Blind (fun eof ts => (p eof ts).map f) ts :=
  hp.andThen fun _ a us _ => blind_ok (f a) us

/-- A decision by the next kind falls in the same way on the bare tokens. -/
theorem Blind.ite {p q : Span → List Token → Verdict α} {ts : List Token} {kind : TokenKind}
    (hp : peek ts = kind → Blind p ts) (hq : peek ts ≠ kind → Blind q ts) :
    Blind (fun eof ts => if peek ts = kind then p eof ts else q eof ts) ts := by
  by_cases hpeek : peek ts = kind
  · exact (hp hpeek).congr fun eof us hus => if_pos (hus.trans hpeek)
  · exact (hq hpeek).congr fun eof us hus => if_neg (by rwa [hus])

theorem blind_tail {q : Span → List Token → Verdict α} (ts : List Token) (hq : Blind q ts.tail) :
    Blind (fun eof ts => q eof ts.tail) ts := by
  intro eof
  show q .nowhere (ts.map Token.bare).tail = _
  rw [← List.map_tail]
  exact hq eof

/-- A token that is taken loses its place, like those behind it. -/
theorem verdict_expect_bare_of_kind {wanted : TokenKind} {t : Token} (h : t.kind = wanted)
    (us : List Token) : (expect .nowhere wanted ((t :: us).map Token.bare)).verdict =
      .ok (t.bare, us.map Token.bare) :=
  verdict_expect_of_kind .nowhere (show t.bare.kind = wanted from h) (us.map Token.bare)

theorem verdict_expect_bare_of_ne {wanted : TokenKind} {ts : List Token} (h : peek ts ≠ wanted) :
    (expect .nowhere wanted (ts.map Token.bare)).verdict =
      .error (unexpected .nowhere wanted (ts.map Token.bare), ts.map Token.bare) :=
  verdict_expect_of_ne .nowhere (by rwa [peek_bare])

theorem unexpected_bare (eof : Span) (wanted : TokenKind) (ts : List Token) :
    unexpected .nowhere wanted (ts.map Token.bare) =
      { unexpected eof wanted ts with span := .nowhere } := by
  cases ts <;> rfl

/-- Behind a token, whichever it is. The token itself is a value with a place, and no production
returns it: this is why `expect` is only ever treated together with what goes on behind it. -/
theorem blind_expect_andThen {q : Span → List Token → Verdict β} (wanted : TokenKind)
    {ts : List Token} (hq : ∀ t us, ts = t :: us → Blind q us) :
    Blind (fun eof ts => (expect eof wanted ts).verdict.andThen fun _ us => q eof us) ts := by
  intro eof
  cases ts with
  | nil => rfl
  | cons t us =>
    by_cases hkind : t.kind = wanted
    · simp only [verdict_expect_of_kind _ hkind, verdict_expect_bare_of_kind hkind,
        Verdict.andThen_ok]
      exact hq t us rfl eof
    · have hpeek : peek (t :: us) ≠ wanted := hkind
      simp only [verdict_expect_of_ne _ hpeek, verdict_expect_bare_of_ne hpeek,
        unexpected_bare eof]
      rfl

/-- The last token of a phrase. -/
theorem blind_expect_map (wanted : TokenKind) (b : β) (ts : List Token) :
    Blind (fun eof ts => (expect eof wanted ts).verdict.map fun _ => b) ts :=
  blind_expect_andThen wanted fun _ us _ => blind_ok b us

/-- A payload that does not depend on the place. The error for a missing payload has the place of
the token, which is taken away with the others. -/
theorem blind_expectPayload (wanted : TokenKind) {get? : Token → Option α}
    (hget : ∀ t : Token, get? t.bare = get? t) (ts : List Token) :
    Blind (fun eof ts => (expectPayload eof wanted get? ts).verdict) ts := by
  intro eof
  simp only [verdict_expectPayload]
  cases ts with
  | nil => rfl
  | cons t us =>
    by_cases hkind : t.kind = wanted
    · simp only [verdict_expect_of_kind _ hkind, verdict_expect_bare_of_kind hkind,
        Verdict.andThen_ok, hget]
      cases get? t <;> rfl
    · have hpeek : peek (t :: us) ≠ wanted := hkind
      simp only [verdict_expect_of_ne _ hpeek, verdict_expect_bare_of_ne hpeek,
        unexpected_bare eof]
      rfl

/-- A loop over items behind commas, by induction on a bound for the tokens below which the items
are blind. -/
theorem blind_items {item : Span → List Token → Verdict α}
    {more : Span → List Token → Verdict (List α)}
    (hmore : ∀ eof ts, more eof ts =
      if peek ts = .comma then
        (item eof ts.tail).andThen fun a rest => (more eof rest).map (a :: ·)
      else .ok ([], ts))
    {n : ℕ} (hitem : ∀ ts, ts.length < n → Blind item ts)
    (hlt : ∀ {eof ts a rest}, item eof ts = .ok (a, rest) → rest.length < ts.length)
    {ts : List Token} (hts : ts.length ≤ n) : Blind more ts := by
  induction n generalizing ts with
  | zero =>
    obtain rfl := List.length_eq_zero_iff.mp (Nat.le_zero.mp hts)
    refine (blind_ok [] []).congr fun eof us hus => ?_
    rw [hmore, if_neg (by rw [hus]; decide)]
  | succ n ih =>
    have htail : ts.tail.length ≤ n := by
      rw [List.length_tail]
      omega
    have hnext : Blind (fun eof ts => (item eof ts).andThen fun a rest =>
        (more eof rest).map (a :: ·)) ts.tail := by
      refine (hitem _ (Nat.lt_succ_of_le htail)).andThen fun eof a rest ha => ?_
      refine Blind.map (ih (fun us hus => hitem us (Nat.lt_succ_of_lt hus)) ?_) _
      exact Nat.le_trans (Nat.le_of_lt (hlt ha)) htail
    exact (Blind.ite (fun _ => blind_tail ts hnext) fun _ => blind_ok [] ts).congr fun eof us _ =>
      hmore eof us

/-! ### Parameter lists -/

theorem blind_identifier (ts : List Token) : Blind (fun eof ts => (identifier eof ts).verdict) ts :=
  blind_expectPayload .ident (fun _ => rfl) ts

theorem blind_params (ts : List Token) : Blind (fun eof ts => (params eof ts).verdict) ts := by
  simp only [verdict_params]
  refine Blind.ite (fun _ => ?_) fun _ => blind_ok [] ts
  refine (blind_identifier ts).andThen fun eof name us _ => Blind.map ?_ _
  exact blind_items verdict_moreParams (fun us _ => blind_identifier us)
    (fun h => Outcome.length_lt_of_verdict h) (Nat.le_refl _)

/-! ### Expressions

Each production is its equation, read with the rules above. -/

/-- The productions that start over are blind on fewer than `n` tokens. -/
structure BlindBelow (n : ℕ) : Prop where
  statement (ts : List Token) (h : ts.length < n) :
    Blind (fun eof ts => (statement eof ts).verdict) ts
  operation (least : ℕ) (ts : List Token) (h : ts.length < n) :
    Blind (fun eof ts => (operation eof least ts).verdict) ts
  unary (ts : List Token) (h : ts.length < n) : Blind (fun eof ts => (unary eof ts).verdict) ts

section BlindBelow

variable {n : ℕ} (hn : BlindBelow n) {ts : List Token}

include hn

theorem blind_primary (hts : ts.length ≤ n) :
    Blind (fun eof ts => (primary eof ts).verdict) ts := by
  by_cases hident : peek ts = .ident
  · exact ((blind_identifier ts).map .var).congr fun eof us hus =>
      verdict_primary_ident eof (hus.trans hident)
  by_cases hint : peek ts = .int
  · exact ((blind_expectPayload .int (fun _ => rfl) ts).map .int).congr fun eof us hus =>
      verdict_primary_int eof (hus.trans hint)
  · refine Blind.congr ?_ fun eof us hus =>
      verdict_primary_other eof (by rwa [hus]) (by rwa [hus])
    refine blind_expect_andThen .lparen fun t us hus => ?_
    rw [hus, List.length_cons] at hts
    refine (hn.statement us (by omega)).andThen fun eof inner vs _ => ?_
    exact blind_expect_map .rparen _ vs

theorem blind_arguments (hts : ts.length < n) :
    Blind (fun eof ts => (arguments eof ts).verdict) ts := by
  simp only [verdict_arguments]
  refine Blind.ite (fun _ => blind_ok [] ts) fun _ => ?_
  refine (hn.statement ts hts).andThen fun eof arg us h => Blind.map ?_ _
  have hlt := Outcome.length_lt_of_verdict h
  exact blind_items verdict_moreArguments hn.statement
    (fun h => Outcome.length_lt_of_verdict h) (by omega)

theorem blind_application (hts : ts.length ≤ n) :
    Blind (fun eof ts => (application eof ts).verdict) ts := by
  simp only [verdict_application]
  refine (blind_primary hn hts).andThen fun eof callee us h => ?_
  have hlt := Outcome.length_lt_of_verdict h
  have hcall : Blind (fun eof ts => (arguments eof ts).verdict.andThen fun args ts =>
      (expect eof .rparen ts).verdict.map fun _ => Expr.call callee args) us.tail := by
    refine (blind_arguments hn ?_).andThen fun eof args vs _ => blind_expect_map .rparen _ vs
    rw [List.length_tail]
    omega
  exact Blind.ite (fun _ => blind_tail us hcall) fun _ => blind_ok callee us

theorem blind_power (hts : ts.length ≤ n) : Blind (fun eof ts => (power eof ts).verdict) ts := by
  simp only [verdict_power]
  refine (blind_application hn hts).andThen fun eof base us h => ?_
  have hlt := Outcome.length_lt_of_verdict h
  have hexponent := (hn.unary us.tail (by rw [List.length_tail]; omega)).map
    (Expr.binary .pow base)
  exact Blind.ite (fun _ => blind_tail us hexponent) fun _ => blind_ok base us

theorem blind_unary (hts : ts.length ≤ n) : Blind (fun eof ts => (unary eof ts).verdict) ts := by
  cases hsign : sign? (peek ts) with
  | none =>
    exact (blind_power hn hts).congr fun eof us hus => verdict_unary_other eof (by rwa [hus])
  | some op =>
    cases ts with
    | nil => cases hsign
    | cons t ts =>
      have hoperand := (hn.unary ts (Nat.lt_of_succ_le hts)).map (Expr.unary op)
      refine (blind_tail (t :: ts) hoperand).congr fun eof us hus => ?_
      cases us with
      | nil => rw [← hus] at hsign; cases hsign
      | cons u us => exact verdict_unary_sign eof (by rwa [← hus] at hsign) us

/-- The loop over the operators, by induction on the tokens that are left, for every operand so far.
-/
theorem blind_operators (least : ℕ) (left : Expr) (hts : ts.length ≤ n) :
    Blind (fun eof ts => (operators eof least left ts).verdict) ts := by
  induction hlen : ts.length using Nat.strongRecOn generalizing left ts with
  | _ len ih =>
    -- an operator that is not stopped takes its right operand, and the loop goes on behind it
    have hstep : ∀ {t : Token} {us : List Token} {l r : ℕ} {op : BinaryOp}, ts = t :: us →
        t.kind.bindingPower? = some (l, r) → BinaryOp.ofToken? t.kind = some op → least ≤ l →
        Blind (fun eof ts => (operators eof least left ts).verdict) ts := by
      rintro t us l r op rfl hpower hop hle
      rw [List.length_cons] at hlen hts
      have hnext : Blind (fun eof ts => (operation eof r ts).verdict.andThen fun right ws =>
          (operators eof least (.binary op left right) ws).verdict) us := by
        refine (hn.operation r us (by omega)).andThen fun eof right vs h => ?_
        have hlt := Outcome.length_lt_of_verdict h
        exact ih vs.length (by omega) _ (by omega) rfl
      refine (blind_tail (t :: us) hnext).congr fun eof vs hvs => ?_
      cases vs with
      | nil => rw [← (show _ = t.kind from hvs)] at hop; cases hop
      | cons u vs =>
        have hu : u.kind = t.kind := hvs
        exact verdict_operators_of_le eof (by rwa [hu]) (by rwa [hu]) hle left vs
    rcases stops_or_operator least ts with hstops | ⟨t, us, op, rfl, hop, hle⟩ |
      ⟨t, us, op, rfl, hop, hle⟩
    · refine (blind_ok left ts).congr fun eof us hus => verdict_operators_of_stops eof ?_ left
      intro l r hpower
      exact hstops l r (by rwa [← hus])
    · obtain ⟨hpower, hop⟩ := sumOp?_eq_some_iff.mp hop
      exact hstep rfl hpower hop hle
    · obtain ⟨hpower, hop⟩ := productOp?_eq_some_iff.mp hop
      exact hstep rfl hpower hop hle

theorem blind_operation (least : ℕ) (hts : ts.length ≤ n) :
    Blind (fun eof ts => (operation eof least ts).verdict) ts := by
  simp only [verdict_operation]
  refine (blind_unary hn hts).andThen fun eof left us h => blind_operators hn least left ?_
  have hlt := Outcome.length_lt_of_verdict h
  omega

theorem blind_statement (hts : ts.length ≤ n) :
    Blind (fun eof ts => (statement eof ts).verdict) ts := by
  by_cases hfunc : peek ts = .func
  · refine Blind.congr ?_ fun eof us hus => verdict_statement_func eof (hus.trans hfunc)
    refine blind_expect_andThen .func fun _ us hus => ?_
    refine blind_expect_andThen .lparen fun _ vs hvs => ?_
    refine (blind_params vs).andThen fun eof names ws hws => ?_
    refine blind_expect_andThen .rparen fun _ xs hxs => ?_
    refine blind_expect_andThen .arrow fun _ ys hys => ?_
    have hlt := Outcome.length_lt_of_verdict hws
    rw [hus, List.length_cons, hvs, List.length_cons] at hts
    rw [hxs, List.length_cons, hys, List.length_cons] at hlt
    exact (hn.statement ys (by omega)).map _
  by_cases hlet : peek ts = .kwLet
  · refine Blind.congr ?_ fun eof us hus => verdict_statement_let eof (hus.trans hlet)
    refine blind_expect_andThen .kwLet fun _ us hus => ?_
    refine (blind_identifier us).andThen fun eof name vs hvs => ?_
    refine blind_expect_andThen .assign fun _ ws hws => ?_
    have hlt := Outcome.length_lt_of_verdict hvs
    rw [hus, List.length_cons] at hts
    rw [hws, List.length_cons] at hlt
    exact (hn.statement ws (by omega)).map _
  · exact (blind_operation hn 0 hts).congr fun eof us hus =>
      verdict_statement_other eof (by rwa [hus]) (by rwa [hus])

end BlindBelow

/-- **The productions are blind**, on any number of tokens. -/
theorem blindBelow (n : ℕ) : BlindBelow n := by
  induction n with
  | zero =>
    exact ⟨fun _ h => absurd h (Nat.not_lt_zero _), fun _ _ h => absurd h (Nat.not_lt_zero _),
      fun _ h => absurd h (Nat.not_lt_zero _)⟩
  | succ n ih =>
    exact ⟨fun _ h => blind_statement ih (Nat.le_of_lt_succ h),
      fun least _ h => blind_operation ih least (Nat.le_of_lt_succ h),
      fun _ h => blind_unary ih (Nat.le_of_lt_succ h)⟩

/-! ### Programs

Unlike locality, this holds of a program as a whole: the end of the input is consumed or not by what
is listed, and not by where it stands. -/

theorem blind_moreStatements (ts : List Token) :
    Blind (fun eof ts => (moreStatements eof ts).verdict) ts := by
  induction hlen : ts.length using Nat.strongRecOn generalizing ts with
  | _ len ih =>
    by_cases hnewline : peek ts = .newline
    · cases ts with
      | nil => cases hnewline
      | cons t ts =>
        rw [List.length_cons] at hlen
        have hnext : Blind (fun eof ts =>
            if peek ts = .newline then (moreStatements eof ts).verdict
            else if peek ts = .eof then .ok ([], ts)
            else
              (statement eof ts).verdict.andThen fun e rest =>
                (moreStatements eof rest).verdict.map (e :: ·)) ts := by
          refine Blind.ite (fun _ => ih ts.length (by omega) ts rfl) fun _ => ?_
          refine Blind.ite (fun _ => blind_ok [] ts) fun _ => ?_
          refine ((blindBelow _).statement ts (Nat.lt_succ_self _)).andThen
            fun eof e us h => Blind.map ?_ _
          have hlt := Outcome.length_lt_of_verdict h
          exact ih us.length (by omega) us rfl
        refine (blind_tail (t :: ts) hnext).congr fun eof us hus => ?_
        cases us with
        | nil => exact absurd (hus.trans hnewline) (by decide)
        | cons u us => exact verdict_moreStatements_newline eof (hus.trans hnewline) us
    · exact (blind_ok [] ts).congr fun eof us hus =>
        verdict_moreStatements_of_ne eof (by rwa [hus])

theorem blind_endOfInput (ts : List Token) :
    Blind (fun eof ts => (endOfInput eof ts).verdict) ts := by
  intro eof
  by_cases hend : peek ts = .eof
  · have hend' : peek (ts.map Token.bare) = .eof := by rwa [peek_bare]
    simp only [(verdict_endOfInput_eq_ok _).mpr ⟨hend, rfl⟩,
      (verdict_endOfInput_eq_ok _).mpr ⟨hend', rfl⟩, ← List.map_tail]
    rfl
  · have hend' : peek (ts.map Token.bare) ≠ .eof := by rwa [peek_bare]
    simp only [verdict_endOfInput_of_ne _ hend, verdict_endOfInput_of_ne _ hend',
      unexpected_bare eof]
    rfl

theorem blind_program (ts : List Token) : Blind (fun eof ts => (program eof ts).verdict) ts := by
  simp only [verdict_program]
  refine ((blindBelow _).statement ts (Nat.lt_succ_self _)).andThen fun eof first us _ => ?_
  refine (blind_moreStatements us).andThen fun eof more vs _ => ?_
  exact (blind_endOfInput vs).map _

end Parser

namespace TokenStream

open ArrowCalc.Parser

/-- The tree has no places, and the message of an error does not mention the place of the error. -/
theorem readProgram_bare (s : TokenStream) : s.bare.readProgram.1 = s.readProgram.1 := by
  have hblind : (program s.bare.eof s.bare.tokens).verdict =
      (program s.eof s.tokens).verdict.bare := blind_program s.tokens s.eof
  rw [readProgram_eq_of_verdict s, readProgram_eq_of_verdict s.bare, hblind]
  rcases (program s.eof s.tokens).verdict with ⟨e, us⟩ | ⟨es, us⟩ <;> rfl

theorem bare_eq_of_content {s s' : TokenStream}
    (h : s.tokens.map Token.content = s'.tokens.map Token.content) : s.bare = s'.bare := by
  rw [bare, bare, map_bare_eq_of_content h]

/-- **Places do not matter.** Streams with the same kinds and payloads are marked in the same
way. -/
theorem marked_congr {s s' : TokenStream}
    (h : s.tokens.map Token.content = s'.tokens.map Token.content) :
    s.marked.tokens.map Token.content = s'.marked.tokens.map Token.content := by
  have hbare := congrArg marked (bare_eq_of_content h)
  rw [marked_bare, marked_bare] at hbare
  have htokens := congrArg (fun s => s.tokens.map Token.content) hbare
  simpa only [bare, map_content_bare] using htokens

/-- Streams with the same kinds and payloads have the same tree, even if it is malformed. -/
theorem readProgram_congr {s s' : TokenStream}
    (h : s.tokens.map Token.content = s'.tokens.map Token.content) :
    s.readProgram.1 = s'.readProgram.1 := by
  rw [← readProgram_bare s, bare_eq_of_content h, readProgram_bare]

end TokenStream

/-- The tree of a source depends on the kinds and payloads of its tokens alone. -/
theorem Expr.parse_congr {source source' : String}
    (h : (TokenStream.ofSource source).tokens.map Token.content =
      (TokenStream.ofSource source').tokens.map Token.content) :
    Expr.parse source = Expr.parse source' :=
  TokenStream.readProgram_congr (TokenStream.marked_congr h)

end ArrowCalc
