import ArrowCalc.Proofs.Parser.Soundness

/-!
# What a syntax error asks for can follow

A production that fails has consumed the beginning of a phrase, and its error names a kind of token
with which this phrase can go on. So behind the tokens in front of the error there is always
something that the grammar accepts, and it starts with a token of the kind that the error asks for.

## Why a completion, and not a set of expected tokens

The usual statement would be about the kinds that may follow a beginning. It would need these sets
for every position of every rule, which the grammar does not have, and it would say less: a kind can
be in such a set although the phrase can never be finished behind it. `Lacks` asks for the rest of
the phrase itself. What is in front of the error, then any token of the kind that is asked for, then
some more tokens, is a phrase of the grammar.

The completions are as short as the rules allow. A missing operand is completed by the literal `0`,
a missing parenthesis by itself, and no search is involved. That any token of the kind will do, and
not just one that the proof chooses, is part of the definition. It is what makes the advice of an
error message sound for the person who reads it.

## How the pieces are put together

The phrase that is completed is the one which the production was reading, and a production above it
completes it further, with as little as its own rule asks for (`Lacks.within`). The rest of the
argument follows the circle of the productions, as for soundness: the productions that start over
are assumed to do so on fewer tokens (`LacksBelow`), and each production is done from the ones below
it. Soundness itself is used for the parts that were read before the failure, since it is what says
that these are phrases.

## Scope

Identifiers and integer literals are supposed to carry their names and values (`Token.IsComplete`),
which the tokens of a source do. A literal without its payload is an error of another kind, and what
it asks for is not a token.

## Main definitions

* `Token.IsComplete` — the token carries what its kind calls for
* `Parser.Lacks` — the error names a token that is missing

## Main results

* `Parser.lacksBelow` — the productions ask for what can follow
* `Parser.program_lacks` — so does a program, unless it was complete and goes on nevertheless
-/

namespace ArrowCalc

/-- The token carries what its kind calls for: an identifier its name, an integer literal its
value. -/
def Token.IsComplete (t : Token) : Prop :=
  (t.kind = .ident → ∃ name, t.name? = some name) ∧ (t.kind = .int → ∃ value, t.int? = some value)

namespace Parser

open Grammar

variable {eof : Span}

/-! ### Beginnings that can be completed -/

variable (eof) in
/-- The tokens of `ts` in front of `rest` can be continued to something of the given form by a token
of the kind that the error names.

The end of the input is left out. An error that asks for it is found behind a complete program, and
`program_lacks` has a case of its own for that. -/
def Lacks (Form : List Token → Prop) (ts : List Token) (e : SyntaxError) (rest : List Token) :
    Prop :=
  ∃ pre wanted, ts = pre ++ rest ∧ wanted ≠ .eof ∧ e = unexpected eof wanted rest ∧
    ∀ t : Token, t.kind = wanted → t.IsComplete → ∃ us, Form (pre ++ t :: us)

/-- What is completed to one form can be completed to a form around it. The tokens `front` were read
by the outer production before it called the inner one, and `vs` is what its rule asks for behind
the inner phrase. -/
theorem Lacks.within {Form Form' : List Token → Prop} {ts rest : List Token} {e : SyntaxError}
    (h : Lacks eof Form ts e rest) (front : List Token)
    (hform : ∀ us, Form us → ∃ vs, Form' (front ++ (us ++ vs))) :
    Lacks eof Form' (front ++ ts) e rest := by
  obtain ⟨pre, wanted, rfl, hwanted, rfl, hpre⟩ := h
  refine ⟨front ++ pre, wanted, (List.append_assoc ..).symm, hwanted, rfl, fun t ht hcomplete => ?_⟩
  obtain ⟨us, hus⟩ := hpre t ht hcomplete
  obtain ⟨vs, hvs⟩ := hform _ hus
  refine ⟨us ++ vs, ?_⟩
  rwa [List.append_assoc, ← List.cons_append, ← List.append_assoc pre]

/-- The completion of a last part completes the whole. Nothing is asked for behind a right operand,
an exponent, a body or a value, so that these cases need no more tokens than the inner one. -/
theorem Lacks.behind {Form Form' : List Token → Prop} {ts rest : List Token} {e : SyntaxError}
    (h : Lacks eof Form ts e rest) (pre : List Token) (t : Token)
    (hform : ∀ us, Form us → Form' (pre ++ t :: us)) :
    Lacks eof Form' (pre ++ t :: ts) e rest := by
  rw [← List.singleton_append, ← List.append_assoc]
  refine h.within _ fun us hus => ⟨[], ?_⟩
  rw [List.append_nil, List.append_assoc, List.singleton_append]
  exact hform us hus

/-- A phrase of a layer is one of the layers above it. -/
theorem Lacks.imp {Form Form' : List Token → Prop} {ts rest : List Token} {e : SyntaxError}
    (h : Lacks eof Form ts e rest) (hform : ∀ us, Form us → Form' us) :
    Lacks eof Form' ts e rest :=
  h.within [] fun us hus => ⟨[], by rw [List.append_nil]; exact hform us hus⟩

/-- A missing token, behind the tokens `front` that were read. -/
theorem lacks_expect {Form : List Token → Prop} {wanted : TokenKind} {ts rest : List Token}
    {e : SyntaxError} (hwanted : wanted ≠ .eof)
    (h : (expect eof wanted ts).verdict = .error (e, rest)) (front : List Token)
    (hform : ∀ t : Token, t.kind = wanted → t.IsComplete → ∃ us, Form (front ++ t :: us)) :
    Lacks eof Form (front ++ ts) e rest := by
  have hpeek : peek ts ≠ wanted := by
    intro hpeek
    cases ts with
    | nil => exact hwanted hpeek.symm
    | cons t ts =>
      rw [verdict_expect_of_kind eof (show t.kind = wanted from hpeek)] at h
      cases h
  rw [verdict_expect_of_ne eof hpeek] at h
  cases h
  exact ⟨front, wanted, rfl, hwanted, rfl, hform⟩

/-- A literal that carries its payload can only be of the wrong kind. This is the one place where
the completeness of the tokens is used. -/
theorem expect_of_expectPayload {α : Type} {wanted : TokenKind} {get? : Token → Option α}
    {ts : List Token} {x : SyntaxError × List Token}
    (hts : ∀ t ∈ ts, t.kind = wanted → ∃ a, get? t = some a)
    (h : (expectPayload eof wanted get? ts).verdict = .error x) :
    (expect eof wanted ts).verdict = .error x := by
  rw [verdict_expectPayload] at h
  rw [Verdict.andThen_eq_error] at h
  rcases h with h | ⟨t, rest, ht, h⟩
  · exact h
  · obtain ⟨rfl, hkind⟩ := (verdict_expect_eq_ok eof).mp ht
    obtain ⟨a, ha⟩ := hts t List.mem_cons_self hkind
    rw [ha] at h
    cases h

/-- A missing name. The form is asked for behind any name, since the name is in the token that comes
next and not known here. -/
theorem lacks_identifier {Form : List Token → Prop} {ts rest : List Token} {e : SyntaxError}
    (hts : ∀ t ∈ ts, t.IsComplete) (h : (identifier eof ts).verdict = .error (e, rest))
    (front : List Token)
    (hform : ∀ piece name, IsName piece name → ∃ us, Form (front ++ (piece ++ us))) :
    Lacks eof Form (front ++ ts) e rest := by
  have hexpect := expect_of_expectPayload (fun t ht => (hts t ht).1) h
  refine lacks_expect (by decide) hexpect front fun t ht hcomplete => ?_
  obtain ⟨name, hname⟩ := hcomplete.1 ht
  exact hform [t] name ⟨t, rfl, ht, hname⟩

/-! ### What completes a phrase

The tokens that stand in for what was not read. Their spans do not matter, since the grammar does
not look at them. -/

/-- A token without a payload. -/
def bare (kind : TokenKind) : Token := ⟨kind, none, .point 0 0⟩

/-- The integer literal `0`. -/
def zero : Token := ⟨.int, some (.int 0), .point 0 0⟩

/-- There are complete tokens of every kind, so that `Lacks` is never true for want of a token. -/
theorem exists_isComplete (kind : TokenKind) : ∃ t : Token, t.kind = kind ∧ t.IsComplete := by
  by_cases hident : kind = .ident
  · exact ⟨⟨.ident, some (.text "x"), .point 0 0⟩, hident.symm, fun _ => ⟨"x", rfl⟩, nofun⟩
  by_cases hint : kind = .int
  · exact ⟨zero, hint.symm, nofun, fun _ => ⟨0, rfl⟩⟩
  · exact ⟨bare kind, rfl, fun h => absurd h hident, fun h => absurd h hint⟩

/-- The tokens are a phrase of the layer. -/
def IsPhrase (layer : Layer) (ts : List Token) : Prop := ∃ e, Derives .marked layer ts e

/-- The tokens are items with commas between them, and there is at least one. -/
def IsList {α : Type} (Item : List Token → α → Prop) (ts : List Token) : Prop :=
  ∃ i items, (∀ j ∈ i :: items, Item j.1 j.2) ∧ Joined ((i :: items).map Prod.fst) ts

theorem derives_zero : Derives .marked .primary [zero] (.int 0) := .int ⟨zero, rfl, rfl, rfl⟩

/-- The shortest statement, which completes a function without a body and a declaration without a
value. -/
theorem statement_zero : Derives .marked .statement [zero] (.int 0) :=
  .ofSum (.ofProduct (.ofSigned (.ofPower (.ofApplication (.ofPrimary derives_zero)))))

theorem IsList.single {α : Type} {Item : List Token → α → Prop} {piece : List Token} {a : α}
    (h : Item piece a) : IsList Item piece :=
  ⟨(piece, a), [], List.forall_mem_singleton.mpr h, .single piece⟩

theorem IsList.cons {α : Type} {Item : List Token → α → Prop} {piece ts : List Token}
    {comma : Token} {a : α} (ha : Item piece a) (hcomma : comma.kind = .comma)
    (h : IsList Item ts) : IsList Item (piece ++ comma :: ts) := by
  obtain ⟨i, items, hitems, hlist⟩ := h
  exact ⟨(piece, a), i :: items, List.forall_mem_cons.mpr ⟨ha, hitems⟩, .cons piece hcomma hlist⟩

/-- A loop over items behind commas, which fails in one of them. The items in front were read, the
one that fails is completed by itself, and no further item is needed. The induction is on a bound
for the tokens that are left, which is also the bound below which the items are known to ask for
what can follow. -/
theorem lacks_items {α : Type} {Item : List Token → α → Prop} {item : List Token → Verdict α}
    {more : List Token → Verdict (List α)}
    (hmore : ∀ ts, more ts =
      if peek ts = .comma then
        (item ts.tail).andThen fun a rest => (more rest).map (a :: ·)
      else .ok ([], ts))
    {n : ℕ} (hsound : ∀ {ts a rest}, item ts = .ok (a, rest) →
      rest.length < ts.length ∧ ∃ piece, ts = piece ++ rest ∧ Item piece a)
    (hitem : ∀ {ts e rest}, ts.length < n → (∀ t ∈ ts, t.IsComplete) →
      item ts = .error (e, rest) → Lacks eof (fun us => ∃ a, Item us a) ts e rest)
    {ts rest piece : List Token} {a : α} {e : SyntaxError} (hts : ts.length ≤ n)
    (hcomplete : ∀ t ∈ ts, t.IsComplete) (ha : Item piece a) (h : more ts = .error (e, rest)) :
    Lacks eof (IsList Item) (piece ++ ts) e rest := by
  induction n generalizing ts piece a with
  | zero =>
    obtain rfl := List.length_eq_zero_iff.mp (Nat.le_zero.mp hts)
    rw [hmore] at h
    cases h
  | succ n ih =>
    rw [hmore] at h
    split at h
    · next hcomma =>
      cases ts with
      | nil => cases hcomma
      | cons c us =>
        have hus : us.length ≤ n := Nat.le_of_succ_le_succ hts
        obtain ⟨-, hcomplete⟩ := List.forall_mem_cons.mp hcomplete
        rw [Verdict.andThen_eq_error] at h
        rcases h with h | ⟨b, vs, hb, h⟩
        · refine (hitem (Nat.lt_succ_of_le hus) hcomplete h).behind piece c fun piece' hpiece' => ?_
          obtain ⟨b, hb⟩ := hpiece'
          exact .cons ha hcomma (.single hb)
        · obtain ⟨hlt, piece', rfl, hpiece'⟩ := hsound hb
          have hvs : vs.length ≤ n := Nat.le_trans (Nat.le_of_lt hlt) hus
          have hlack := ih (fun hlen => hitem (Nat.lt_succ_of_lt hlen)) hvs
            (fun t ht => hcomplete t (List.mem_append_right _ ht)) hpiece'
            (Verdict.map_eq_error.mp h)
          exact hlack.behind piece c fun list hlist => .cons ha hcomma hlist
    · cases h

/-- A parameter list fails only behind a comma: the first name is looked at before it is read. -/
theorem lacks_params {ts rest : List Token} {e : SyntaxError} (hts : ∀ t ∈ ts, t.IsComplete)
    (h : (params eof ts).verdict = .error (e, rest)) : Lacks eof (IsList IsName) ts e rest := by
  rw [verdict_params] at h
  have hitem : ∀ {ts e rest}, (∀ t ∈ ts, t.IsComplete) →
      (identifier eof ts).verdict = .error (e, rest) →
      Lacks eof (fun us => ∃ name, IsName us name) ts e rest := by
    intro ts e rest hts h
    refine lacks_identifier hts h [] fun piece name hname => ⟨[], name, ?_⟩
    rwa [List.nil_append, List.append_nil]
  split at h
  · rw [Verdict.andThen_eq_error] at h
    rcases h with h | ⟨name, us, hname, h⟩
    · exact (hitem hts h).imp fun us ⟨name, hname⟩ => .single hname
    · obtain ⟨piece, rfl, hpiece⟩ := identifier_sound hname
      refine lacks_items (verdict_moreParams eof) (fun hok => ?_) (fun _ => hitem)
        (Nat.le_refl us.length) (fun t ht => hts t (List.mem_append_right _ ht)) hpiece
        (Verdict.map_eq_error.mp h)
      exact ⟨Outcome.length_lt_of_verdict hok, identifier_sound hok⟩
  · cases h

/-! ### Expressions

In each of the lemmas below the failure is traced to the part in which it happened. The parts in
front of it were read and are phrases by soundness, and the part itself gives a completion by the
lemma of its production. What is written out is which tokens the rule still asks for. -/

variable (eof) in
/-- The productions that start over ask for what can follow, on fewer than `n` tokens. -/
structure LacksBelow (n : ℕ) : Prop where
  statement : ∀ {ts e rest}, ts.length < n → (∀ t ∈ ts, t.IsComplete) →
    (statement eof ts).verdict = .error (e, rest) → Lacks eof (IsPhrase .statement) ts e rest
  operation : ∀ {least ts e rest}, ts.length < n → (∀ t ∈ ts, t.IsComplete) →
    (operation eof least ts).verdict = .error (e, rest) →
    Lacks eof (IsPhrase (layerOf least)) ts e rest
  unary : ∀ {ts e rest}, ts.length < n → (∀ t ∈ ts, t.IsComplete) →
    (unary eof ts).verdict = .error (e, rest) → Lacks eof (IsPhrase .signed) ts e rest

variable {n : ℕ} (hn : LacksBelow eof n) {ts rest : List Token} {e : SyntaxError}
  (hcomplete : ∀ t ∈ ts, t.IsComplete)

include hn hcomplete

/-- A primary expression that is neither a name nor a literal has to start with a parenthesis, and
this is what its error asks for, although a name or a literal would do as well. -/
theorem primary_lacks (hts : ts.length ≤ n) (h : (primary eof ts).verdict = .error (e, rest)) :
    Lacks eof (IsPhrase .primary) ts e rest := by
  by_cases hident : peek ts = .ident
  · rw [verdict_primary_ident eof hident, Verdict.map_eq_error] at h
    refine lacks_identifier hcomplete h [] fun piece name hname => ⟨[], .var name, ?_⟩
    rw [List.nil_append, List.append_nil]
    exact .var hname
  by_cases hint : peek ts = .int
  · rw [verdict_primary_int eof hint, Verdict.map_eq_error] at h
    have hexpect := expect_of_expectPayload (fun t ht => (hcomplete t ht).2) h
    refine lacks_expect (by decide) hexpect [] fun t ht hvalue => ?_
    obtain ⟨value, hvalue⟩ := hvalue.2 ht
    exact ⟨[], .int value, .int ⟨t, rfl, ht, hvalue⟩⟩
  · rw [verdict_primary_other eof hident hint] at h
    rw [Verdict.andThen_eq_error] at h
    rcases h with h | ⟨l, us, hopen, h⟩
    · refine lacks_expect (by decide) h [] fun t ht _ => ?_
      exact ⟨[zero] ++ [bare .rparen], _, .paren ht statement_zero rfl⟩
    obtain ⟨rfl, hl⟩ := (verdict_expect_eq_ok eof).mp hopen
    obtain ⟨-, hus⟩ := List.forall_mem_cons.mp hcomplete
    have hlt : us.length < n := Nat.lt_of_succ_le hts
    rw [← List.singleton_append]
    rw [Verdict.andThen_eq_error] at h
    rcases h with h | ⟨inner, vs, hinner, h⟩
    · refine (hn.statement hlt hus h).within _ fun ts hphrase => ?_
      obtain ⟨inner, hinner⟩ := hphrase
      exact ⟨[bare .rparen], .paren inner, .paren hl hinner rfl⟩
    · obtain ⟨pre, rfl, hpre⟩ := (soundBelow eof _).statement (Nat.lt_succ_self _) hinner
      rw [Verdict.map_eq_error] at h
      rw [← List.append_assoc]
      refine lacks_expect (by decide) h _ fun t ht _ => ⟨[], .paren inner, ?_⟩
      exact .paren hl hpre ht

theorem arguments_lacks (hts : ts.length < n)
    (h : (arguments eof ts).verdict = .error (e, rest)) :
    Lacks eof (IsList (Derives .marked .statement)) ts e rest := by
  rw [verdict_arguments] at h
  split at h
  · cases h
  · rw [Verdict.andThen_eq_error] at h
    rcases h with h | ⟨arg, us, harg, h⟩
    · exact (hn.statement hts hcomplete h).imp fun us ⟨arg, harg⟩ => .single harg
    · have hus : us.length ≤ n :=
        Nat.le_of_lt (Nat.lt_trans (Outcome.length_lt_of_verdict harg) hts)
      obtain ⟨piece, rfl, hpiece⟩ := (soundBelow eof _).statement (Nat.lt_succ_self _) harg
      refine lacks_items (verdict_moreArguments eof) (fun hok => ?_) hn.statement hus
        (fun t ht => hcomplete t (List.mem_append_right _ ht)) hpiece (Verdict.map_eq_error.mp h)
      exact ⟨Outcome.length_lt_of_verdict hok,
        (soundBelow eof _).statement (Nat.lt_succ_self _) hok⟩

/-- A call fails in the callee, in an argument, or at the closing parenthesis. Behind the opening
parenthesis the phrase can no longer be the callee alone. -/
theorem application_lacks (hts : ts.length ≤ n)
    (h : (application eof ts).verdict = .error (e, rest)) :
    Lacks eof (IsPhrase .application) ts e rest := by
  rw [verdict_application] at h
  rw [Verdict.andThen_eq_error] at h
  rcases h with h | ⟨callee, us, hcallee, h⟩
  · exact (primary_lacks hn hcomplete hts h).imp fun us ⟨e, he⟩ => ⟨e, .ofPrimary he⟩
  have hlt := Outcome.length_lt_of_verdict hcallee
  -- what was read so far is a callee, which the completion has to keep
  obtain ⟨pre, rfl, hpre⟩ := primary_sound (soundBelow eof _) (Nat.le_refl _) hcallee
  split at h
  · next hopen =>
    cases us with
    | nil => cases hopen
    | cons l us =>
      have hus : us.length < n := by
        rw [List.length_cons] at hlt
        omega
      have hcomplete : ∀ t ∈ us, t.IsComplete := fun t ht =>
        hcomplete t (List.mem_append_right _ (List.mem_cons_of_mem l ht))
      rw [← List.singleton_append, ← List.append_assoc]
      rw [Verdict.andThen_eq_error] at h
      rcases h with h | ⟨args, vs, hargs, h⟩
      · refine (arguments_lacks hn hcomplete hus h).within _ fun list hlist => ?_
        obtain ⟨i, items, hitems, hlist⟩ := hlist
        refine ⟨[bare .rparen], .call callee ((i :: items).map Prod.snd), ?_⟩
        rw [List.append_assoc, List.singleton_append]
        exact .call hpre hopen hitems hlist rfl
      · obtain ⟨items, list, rfl, hitems, hlist, rfl⟩ :=
          arguments_sound (soundBelow eof _) (Nat.lt_succ_self _) hargs
        rw [Verdict.map_eq_error] at h
        rw [← List.append_assoc]
        refine lacks_expect (by decide) h _ fun t ht _ =>
          ⟨[], .call callee (items.map Prod.snd), ?_⟩
        simp only [List.append_assoc, List.singleton_append]
        exact .call hpre hopen hitems hlist ht
  · cases h

/-- A power fails in the base or in the exponent; behind a base alone there is nothing to fail. -/
theorem power_lacks (hts : ts.length ≤ n) (h : (power eof ts).verdict = .error (e, rest)) :
    Lacks eof (IsPhrase .power) ts e rest := by
  rw [verdict_power] at h
  rw [Verdict.andThen_eq_error] at h
  rcases h with h | ⟨base, us, hbase, h⟩
  · exact (application_lacks hn hcomplete hts h).imp fun us ⟨e, he⟩ => ⟨e, .ofApplication he⟩
  have hlt := Outcome.length_lt_of_verdict hbase
  obtain ⟨pre, rfl, hpre⟩ := application_sound (soundBelow eof _) (Nat.le_refl _) hbase
  split at h
  · next hop =>
    cases us with
    | nil => cases hop
    | cons t us =>
      have hus : us.length < n := by
        rw [List.length_cons] at hlt
        omega
      have hcomplete : ∀ t ∈ us, t.IsComplete := fun u hu =>
        hcomplete u (List.mem_append_right _ (List.mem_cons_of_mem t hu))
      rw [Verdict.map_eq_error] at h
      refine (hn.unary hus hcomplete h).behind pre t fun vs hvs => ?_
      obtain ⟨exponent, hexponent⟩ := hvs
      exact ⟨.binary .pow base exponent, .power hpre hop hexponent⟩
  · cases h

theorem unary_lacks (hts : ts.length ≤ n) (h : (unary eof ts).verdict = .error (e, rest)) :
    Lacks eof (IsPhrase .signed) ts e rest := by
  cases hsign : sign? (peek ts) with
  | none =>
    rw [verdict_unary_other eof hsign] at h
    exact (power_lacks hn hcomplete hts h).imp fun us ⟨e, he⟩ => ⟨e, .ofPower he⟩
  | some op =>
    cases ts with
    | nil => cases hsign
    | cons t us =>
      rw [verdict_unary_sign eof hsign, Verdict.map_eq_error] at h
      obtain ⟨-, hus⟩ := List.forall_mem_cons.mp hcomplete
      refine (hn.unary (Nat.lt_of_succ_le hts) hus h).behind [] t fun vs hvs => ?_
      obtain ⟨operand, hoperand⟩ := hvs
      exact ⟨.unary op operand, .sign hsign hoperand⟩

/-- The loop over the operators, with the operand so far in front of it. The induction is on the
tokens that are left: an operator whose right operand was read leaves fewer of them, and an operator
whose right operand fails gives the completion. -/
theorem operators_lacks {least : ℕ} {pre : List Token} {left : Expr} (hts : ts.length ≤ n)
    (hleft : Operand least pre left ts)
    (h : (operators eof least left ts).verdict = .error (e, rest)) :
    Lacks eof (IsPhrase (layerOf least)) (pre ++ ts) e rest := by
  induction hlen : ts.length using Nat.strongRecOn generalizing pre left ts with
  | _ len ih =>
    -- what is left to do once an operator `t` and its right operand `mid` were read
    have hnext : ∀ {t : Token} {mid vs : List Token} {next : Expr}, ts = t :: (mid ++ vs) →
        Operand least (pre ++ t :: mid) next vs →
        (operators eof least next vs).verdict = .error (e, rest) →
        Lacks eof (IsPhrase (layerOf least)) (pre ++ ts) e rest := by
      rintro t mid vs next rfl hnext hread
      simp only [List.length_cons, List.length_append] at hlen hts
      have hvs : ∀ t ∈ vs, t.IsComplete := fun t ht =>
        hcomplete t (List.mem_cons_of_mem _ (List.mem_append_right _ ht))
      have hlack := ih vs.length (by omega) hvs (by omega) hnext hread rfl
      rwa [List.append_assoc, List.cons_append] at hlack
    rcases stops_or_operator least ts with hstops | ⟨t, us, op, rfl, hop, hle⟩ |
      ⟨t, us, op, rfl, hop, hle⟩
    · rw [verdict_operators_of_stops eof hstops] at h
      cases h
    · obtain ⟨-, hus⟩ := List.forall_mem_cons.mp hcomplete
      have hsum := hleft.derives
      rw [layerOf, if_pos hle] at hsum
      rw [verdict_operators_sum eof hle hop] at h
      rw [Verdict.andThen_eq_error] at h
      rcases h with h | ⟨right, vs, hright, h⟩
      · refine (hn.operation (Nat.lt_of_succ_le hts) hus h).behind pre t fun us hus => ?_
        obtain ⟨right, hright⟩ := hus
        refine ⟨.binary op left right, ?_⟩
        rw [layerOf, if_pos hle]
        exact .sum hsum hop hright
      · obtain ⟨hstops, mid, rfl, hmid⟩ :=
          (soundBelow eof _).operation (Nat.lt_succ_self _) hright
        exact hnext rfl (.sum hle (.sum hsum hop hmid) hstops) h
    · obtain ⟨-, hus⟩ := List.forall_mem_cons.mp hcomplete
      have hproduct := hleft.product_of_op hop
      rw [verdict_operators_product eof hle hop] at h
      rw [Verdict.andThen_eq_error] at h
      rcases h with h | ⟨right, vs, hright, h⟩
      · refine (hn.operation (Nat.lt_of_succ_le hts) hus h).behind pre t fun us hus => ?_
        obtain ⟨right, hright⟩ := hus
        have hnext : Operand least (pre ++ t :: us) (.binary op left right) [] :=
          .product hle (.product hproduct hop hright)
        exact ⟨.binary op left right, hnext.derives⟩
      · obtain ⟨-, mid, rfl, hmid⟩ := (soundBelow eof _).operation (Nat.lt_succ_self _) hright
        exact hnext rfl (.product hle (.product hproduct hop hmid)) h

theorem operation_lacks {least : ℕ} (hts : ts.length ≤ n)
    (h : (operation eof least ts).verdict = .error (e, rest)) :
    Lacks eof (IsPhrase (layerOf least)) ts e rest := by
  rw [verdict_operation] at h
  rw [Verdict.andThen_eq_error] at h
  rcases h with h | ⟨left, us, hleft, h⟩
  · refine (unary_lacks hn hcomplete hts h).imp fun us ⟨e, he⟩ => ?_
    have hsigned : Operand least us e [] := .signed he
    exact ⟨e, hsigned.derives⟩
  · have hlt := Outcome.length_lt_of_verdict hleft
    obtain ⟨pre, rfl, hpre⟩ := unary_sound (soundBelow eof _) (Nat.le_refl _) hleft
    exact operators_lacks hn (fun t ht => hcomplete t (List.mem_append_right _ ht))
      (Nat.le_of_lt (Nat.lt_of_lt_of_le hlt hts)) (.signed hpre) h

omit hn hcomplete in
/-- A function literal from its parts. -/
theorem isPhrase_func {mark l r arrow : Token} {list body : List Token}
    {params : List (List Token × String)} (hmark : mark.kind = .func) (hl : l.kind = .lparen)
    (hparams : ∀ p ∈ params, IsName p.1 p.2) (hlist : Joined (params.map Prod.fst) list)
    (hr : r.kind = .rparen) (harrow : arrow.kind = .arrow) (hbody : IsPhrase .statement body) :
    IsPhrase .statement (mark :: l :: (list ++ r :: arrow :: body)) := by
  obtain ⟨e, hbody⟩ := hbody
  have hopen : [mark, l].map Token.kind = Dialect.marked.opening := by
    rw [List.map_cons, List.map_singleton, hmark, hl]
    rfl
  exact ⟨.func (params.map Prod.snd) e, .func hopen hparams hlist hr harrow hbody⟩

/-- A function literal, at each of the six places where it can fail. The completion is shorter the
later the failure comes: at the mark the whole literal is missing, at the arrow only a body. -/
theorem statement_func_lacks (hts : ts.length ≤ n) (hfunc : peek ts = .func)
    (h : (statement eof ts).verdict = .error (e, rest)) :
    Lacks eof (IsPhrase .statement) ts e rest := by
  have hzero : IsPhrase .statement [zero] := ⟨_, statement_zero⟩
  rw [verdict_statement_func eof hfunc, Verdict.andThen_eq_error] at h
  rcases h with h | ⟨mark, us, hmark, h⟩
  · refine lacks_expect (by decide) h [] fun t ht _ => ?_
    exact ⟨[bare .lparen, bare .rparen, bare .arrow, zero],
      isPhrase_func ht rfl (List.forall_mem_nil _) .nil rfl rfl hzero⟩
  obtain ⟨rfl, kmark⟩ := (verdict_expect_eq_ok eof).mp hmark
  rw [Verdict.andThen_eq_error] at h
  rcases h with h | ⟨l, vs, hl, h⟩
  · refine lacks_expect (by decide) h [mark] fun t ht _ => ?_
    exact ⟨[bare .rparen, bare .arrow, zero],
      isPhrase_func kmark ht (List.forall_mem_nil _) .nil rfl rfl hzero⟩
  obtain ⟨rfl, kl⟩ := (verdict_expect_eq_ok eof).mp hl
  rw [Verdict.andThen_eq_error] at h
  rcases h with h | ⟨names, ws, hnames, h⟩
  · have hvs : ∀ t ∈ vs, t.IsComplete := fun t ht =>
      hcomplete t (List.mem_cons_of_mem _ (List.mem_cons_of_mem _ ht))
    refine (lacks_params hvs h).within [mark, l] fun list hlist => ?_
    obtain ⟨p, params, hparams, hlist⟩ := hlist
    exact ⟨[bare .rparen, bare .arrow, zero],
      isPhrase_func kmark kl hparams hlist rfl rfl hzero⟩
  -- from here on the completion has the parameters that were read
  obtain ⟨params, list, rfl, hparams, hlist, rfl⟩ := params_sound hnames
  rw [Verdict.andThen_eq_error] at h
  rcases h with h | ⟨r, xs, hr, h⟩
  · refine lacks_expect (by decide) h (mark :: l :: list) fun t ht _ => ?_
    exact ⟨[bare .arrow, zero], isPhrase_func kmark kl hparams hlist ht rfl hzero⟩
  obtain ⟨rfl, kr⟩ := (verdict_expect_eq_ok eof).mp hr
  have hfront : ∀ us, mark :: l :: (list ++ r :: us) = (mark :: l :: (list ++ [r])) ++ us := by
    simp only [List.cons_append, List.append_assoc, List.nil_append, forall_const]
  rw [Verdict.andThen_eq_error] at h
  rcases h with h | ⟨arrow, ys, harrow, h⟩
  · rw [hfront]
    refine lacks_expect (by decide) h _ fun t ht _ => ⟨[zero], ?_⟩
    rw [← hfront]
    exact isPhrase_func kmark kl hparams hlist kr ht hzero
  · obtain ⟨rfl, karrow⟩ := (verdict_expect_eq_ok eof).mp harrow
    rw [Verdict.map_eq_error] at h
    simp only [List.length_cons, List.length_append] at hts
    simp only [List.forall_mem_cons, List.forall_mem_append] at hcomplete
    obtain ⟨-, -, -, -, -, hys⟩ := hcomplete
    rw [hfront]
    refine (hn.statement (by omega) hys h).behind _ arrow fun body hbody => ?_
    rw [← hfront]
    exact isPhrase_func kmark kl hparams hlist kr karrow hbody

/-- A declaration, at each of the four places where it can fail. -/
theorem statement_let_lacks (hts : ts.length ≤ n) (hlet : peek ts = .kwLet)
    (h : (statement eof ts).verdict = .error (e, rest)) :
    Lacks eof (IsPhrase .statement) ts e rest := by
  rw [verdict_statement_let eof hlet, Verdict.andThen_eq_error] at h
  rcases h with h | ⟨kw, us, hkw, h⟩
  · refine lacks_expect (by decide) h [] fun t ht _ => ?_
    let name : Token := ⟨.ident, some (.text "x"), .point 0 0⟩
    exact ⟨[name] ++ bare .assign :: [zero], _,
      .declare ht ⟨name, rfl, rfl, rfl⟩ rfl statement_zero⟩
  obtain ⟨rfl, kkw⟩ := (verdict_expect_eq_ok eof).mp hkw
  obtain ⟨-, hus⟩ := List.forall_mem_cons.mp hcomplete
  rw [Verdict.andThen_eq_error] at h
  rcases h with h | ⟨name, vs, hname, h⟩
  · refine lacks_identifier hus h [kw] fun piece name hname => ?_
    exact ⟨bare .assign :: [zero], _, .declare kkw hname rfl statement_zero⟩
  obtain ⟨piece, rfl, hpiece⟩ := identifier_sound hname
  rw [Verdict.andThen_eq_error] at h
  rcases h with h | ⟨assign, ws, hassign, h⟩
  · refine lacks_expect (by decide) h (kw :: piece) fun t ht _ => ?_
    exact ⟨[zero], _, .declare kkw hpiece ht statement_zero⟩
  · obtain ⟨rfl, kassign⟩ := (verdict_expect_eq_ok eof).mp hassign
    rw [Verdict.map_eq_error] at h
    simp only [List.length_cons, List.length_append] at hts
    simp only [List.forall_mem_cons, List.forall_mem_append] at hus
    refine (hn.statement (by omega) hus.2.2 h).behind (kw :: piece) assign fun value hvalue => ?_
    obtain ⟨e, hvalue⟩ := hvalue
    exact ⟨.declare name e, .declare kkw hpiece kassign hvalue⟩

theorem statement_lacks (hts : ts.length ≤ n) (h : (statement eof ts).verdict = .error (e, rest)) :
    Lacks eof (IsPhrase .statement) ts e rest := by
  by_cases hfunc : peek ts = .func
  · exact statement_func_lacks hn hcomplete hts hfunc h
  by_cases hlet : peek ts = .kwLet
  · exact statement_let_lacks hn hcomplete hts hlet h
  · rw [verdict_statement_other eof hfunc hlet] at h
    exact (operation_lacks hn hcomplete hts h).imp fun us ⟨e, he⟩ => ⟨e, .ofSum he⟩

omit hn hcomplete

variable (eof) in
/-- **The productions ask for what can follow**, on any number of tokens. -/
theorem lacksBelow (n : ℕ) : LacksBelow eof n := by
  induction n with
  | zero => exact ⟨fun h => absurd h (Nat.not_lt_zero _), fun h => absurd h (Nat.not_lt_zero _),
      fun h => absurd h (Nat.not_lt_zero _)⟩
  | succ n ih =>
    exact ⟨fun h hts => statement_lacks ih hts (Nat.le_of_lt_succ h),
      fun h hts => operation_lacks ih hts (Nat.le_of_lt_succ h),
      fun h hts => unary_lacks ih hts (Nat.le_of_lt_succ h)⟩

/-! ### Programs

A statement that fails is completed to a statement, and the program ends there. A program can also
be complete where the parser fails, namely at a token that can neither continue its last statement
nor start a line of its own. What is asked for then is the end of the input. -/

/-- The tokens are a program. -/
def IsProgram (ts : List Token) : Prop := ∃ es, Program .marked ts es

/-- The loop over the statements, behind the statement `pre` and the line breaks `breaks`. The
breaks are carried along because the loop skips them one at a time, and the rule of the grammar
wants them together. -/
theorem moreStatements_lacks {pre breaks : List Token} {first : Expr}
    (hpre : Derives .marked .statement pre first) (hbreaks : LineBreaks breaks)
    (hcomplete : ∀ t ∈ ts, t.IsComplete)
    (h : (moreStatements eof ts).verdict = .error (e, rest)) :
    Lacks eof IsProgram (pre ++ (breaks ++ ts)) e rest := by
  induction hlen : ts.length using Nat.strongRecOn generalizing pre breaks ts first with
  | _ len ih =>
    by_cases hnewline : peek ts = .newline
    · cases ts with
      | nil => cases hnewline
      | cons t ts =>
        have hbreaks' : LineBreaks (breaks ++ [t]) :=
          List.forall_mem_append.mpr ⟨hbreaks, List.forall_mem_singleton.mpr hnewline⟩
        have hne : breaks ++ [t] ≠ [] :=
          List.append_ne_nil_of_right_ne_nil breaks (List.cons_ne_nil t [])
        obtain ⟨-, hts⟩ := List.forall_mem_cons.mp hcomplete
        rw [List.length_cons] at hlen
        rw [verdict_moreStatements_newline eof hnewline] at h
        rw [← List.singleton_append, ← List.append_assoc breaks]
        split at h
        -- one more line break: the statement in front stays the same
        · exact ih ts.length (by omega) hpre hbreaks' hts h rfl
        split at h
        · cases h
        rw [← List.append_assoc]
        rw [Verdict.andThen_eq_error] at h
        rcases h with h | ⟨next, us, hnext, h⟩
        · refine ((lacksBelow eof _).statement (Nat.lt_succ_self _) hts h).within _
            fun us hus => ⟨[], ?_⟩
          obtain ⟨next, hnext⟩ := hus
          have hlast : Program .marked (us ++ []) [next] := .last hnext (List.forall_mem_nil _)
          rw [List.append_assoc]
          exact ⟨first :: [next], .cons hpre hne hbreaks' hlast⟩
        · obtain ⟨pre', rfl, hpre'⟩ := (soundBelow eof _).statement (Nat.lt_succ_self _) hnext
          rw [List.length_append] at hlen
          have hlack := ih us.length (by omega) hpre' (List.forall_mem_nil _)
            (fun t ht => hts t (List.mem_append_right _ ht)) (Verdict.map_eq_error.mp h) rfl
          refine hlack.within _ fun vs hvs => ⟨[], ?_⟩
          obtain ⟨es, hprogram⟩ := hvs
          rw [List.append_nil, List.append_assoc]
          exact ⟨first :: es, .cons hpre hne hbreaks' hprogram⟩
    · rw [verdict_moreStatements_of_ne eof hnewline] at h
      cases h

/-- **A program that fails** asks for what can follow, or it was complete where something else than
the end of the input follows. -/
theorem program_lacks (hcomplete : ∀ t ∈ ts, t.IsComplete)
    (h : (program eof ts).verdict = .error (e, rest)) :
    Lacks eof IsProgram ts e rest ∨
      ∃ pre, ts = pre ++ rest ∧ e = unexpected eof .eof rest ∧ IsProgram pre := by
  rw [verdict_program, Verdict.andThen_eq_error] at h
  rcases h with h | ⟨first, us, hfirst, h⟩
  · have hlack := (lacksBelow eof _).statement (Nat.lt_succ_self _) hcomplete h
    refine .inl (hlack.imp fun us ⟨first, hfirst⟩ => ⟨[first], ?_⟩)
    rw [← List.append_nil us]
    exact .last hfirst (List.forall_mem_nil _)
  obtain ⟨pre, rfl, hpre⟩ := (soundBelow eof _).statement (Nat.lt_succ_self _) hfirst
  have hus : ∀ t ∈ us, t.IsComplete := fun t ht => hcomplete t (List.mem_append_right _ ht)
  rw [Verdict.andThen_eq_error] at h
  rcases h with h | ⟨more, vs, hmore, h⟩
  · exact .inl (moreStatements_lacks hpre (List.forall_mem_nil _) hus h)
  · obtain ⟨mid, rfl, hprogram⟩ := moreStatements_sound hpre (List.forall_mem_nil _) hmore
    rw [Verdict.map_eq_error] at h
    have hend : peek vs ≠ .eof := by
      intro hend
      rw [(verdict_endOfInput_eq_ok eof).mpr ⟨hend, rfl⟩] at h
      cases h
    rw [verdict_endOfInput_of_ne eof hend] at h
    cases h
    exact .inr ⟨pre ++ mid, (List.append_assoc ..).symm, rfl, _, hprogram⟩

end Parser

end ArrowCalc
