import ArrowCalc.Proofs.Parser.Verdict

/-!
# What is in the grammar is accepted

A phrase is read by the production of its layer, with the tree of the grammar as the value, provided
that the token behind it cannot continue the phrase (`Ends`). Together with soundness this makes the
grammar the definition of what is accepted, and the parser a way to find the derivation.

## Why the token behind matters

The grammar says which tokens form a phrase and nothing about what follows them. The parser sees
more: it reads the longest phrase it can, so that `a` in front of `(b)` is never read as a phrase of
its own. A statement about `ts ++ rest` for all `rest` would be false. `Ends layer rest` makes it
true with a condition on one token: its kind is none of those that continue a phrase of the layer
(`continuations`). The condition is a little stronger than it has to be, since a call has no second
argument list, and what follows a phrase of a program meets it all the same.

The condition grows with the layer. A primary expression is read whatever follows, a power needs the
absence of `**` and of an opening parenthesis, a statement the absence of every operator. The rules
of the grammar that pass from one layer to the next are the places where `Ends.mono` is used.

## What the induction carries

The proof is an induction on the derivation, with one lemma for each rule. Its statement differs
from layer to layer (`Reads`), since sums and products have no production of their own. Both are
read by one loop over the operators, which is told the least binding power it may take. A phrase of
one of these layers takes the loop to its middle, with the tree of the phrase as the operand so far,
and a statement about the value that the loop returns would not be inductive.

## Main definitions

* `Parser.Ends` — the next token does not continue a phrase
* `Parser.Reads` — how the productions treat a phrase

## Main results

* `Parser.reads_of_derives` — every phrase of the grammar is read
* `Parser.program_complete` — every program of the grammar is accepted
-/

namespace ArrowCalc

namespace Parser

open Grammar

variable {eof : Span}

/-! ### The token behind a phrase

The kinds of tokens are finitely many, so that each of the facts about `continuations` is decided by
going through them. -/

/-- The kinds that continue a phrase of a layer. The lists grow from one layer to the next, except
that a sum and a statement are continued by the same tokens: the arrow of a function and the equals
sign of a declaration stand in front of a statement, not behind one. -/
def continuations : Layer → List TokenKind
  | .primary => []
  | .application => [.lparen]
  | .power | .signed => [.lparen, .power]
  | .product => [.lparen, .power, .star, .slash]
  | .sum | .statement => [.lparen, .power, .star, .slash, .plus, .dash]

/-- The tokens `rest` do not continue a phrase of the layer in front of them. -/
def Ends (layer : Layer) (rest : List Token) : Prop := peek rest ∉ continuations layer

/-- What does not continue a phrase of a layer does not continue one of a layer below it. -/
theorem Ends.mono {layer layer' : Layer} {rest : List Token} (h : Ends layer rest)
    (hsub : continuations layer' ⊆ continuations layer) : Ends layer' rest :=
  fun hmem => h (hsub hmem)

theorem ends_of_kind {layer : Layer} {kind : TokenKind} {rest : List Token} (hk : peek rest = kind)
    (h : kind ∉ continuations layer) : Ends layer rest := by
  rwa [Ends, hk]

theorem Ends.ne {layer : Layer} {kind : TokenKind} {rest : List Token} (h : Ends layer rest)
    (hk : kind ∈ continuations layer) : peek rest ≠ kind := by
  rintro rfl
  exact h hk

/-- Behind a statement the loop over the operators stops, whichever power it was started with. -/
theorem Ends.stops {rest : List Token} (h : Ends .statement rest) (least : ℕ) :
    Stops least rest := by
  intro l r hpower
  have hmem : peek rest ∈ continuations .statement := by
    generalize peek rest = kind at hpower
    cases kind <;> first | decide | cases hpower
  exact absurd hmem h

/-- Behind a product the loop for the right operand of a sum stops. The token may be a `+` here: the
loop was started with the power 2, and a `+` holds its left side with the power 1. -/
theorem Ends.stops_two {rest : List Token} (h : Ends .product rest) : Stops 2 rest := by
  intro l r hpower
  rw [Ends] at h
  generalize peek rest = kind at h hpower
  cases kind <;> first | exact absurd (by decide) h | cases hpower <;> decide

/-- No operator holds its left side with the power 4, with which the right operand of a product is
read. -/
theorem stops_four (rest : List Token) : Stops 4 rest := by
  intro l r hpower
  generalize peek rest = kind at hpower
  cases kind <;> cases hpower <;> decide

/-- A phrase has a first token, and its kind is one that phrases of the layer start with. This is
how the productions that decide by the next token take the branch of the phrase. -/
theorem peek_append {layer : Layer} {ts : List Token} {e : Expr} (h : Derives .marked layer ts e)
    (rest : List Token) : peek (ts ++ rest) ∈ layer.first .marked := by
  obtain ⟨t, us, rfl, ht⟩ := h.exists_first
  exact ht

theorem peek_append_ne {layer : Layer} {ts : List Token} {e : Expr} {kind : TokenKind}
    (h : Derives .marked layer ts e) (rest : List Token) (hk : kind ∉ layer.first .marked) :
    peek (ts ++ rest) ≠ kind := by
  rintro rfl
  exact hk (peek_append h rest)

/-! ### Lists of items

Parameters and arguments are read by two loops with the same text, one over names and one over
statements. The lemma below is about any such loop, given by its equation. -/

/-- A loop over commas reads joined items up to a closing parenthesis. The items have to be read in
front of a comma and of a parenthesis only, since nothing else can follow one. -/
theorem read_items {α : Type} (item : List Token → Verdict α)
    (more : List Token → Verdict (List α))
    (hmore : ∀ ts, more ts =
      if peek ts = .comma then (item ts.tail).andThen fun a rest => (more rest).map (a :: ·)
      else .ok ([], ts))
    {i : List Token × α} {items : List (List Token × α)} {list rest : List Token}
    (hitems : ∀ j ∈ i :: items, ∀ rest, peek rest = .comma ∨ peek rest = .rparen →
      item (j.1 ++ rest) = .ok (j.2, rest))
    (hlist : Joined ((i :: items).map Prod.fst) list) (hrest : peek rest = .rparen) :
    ((item (list ++ rest)).andThen fun a rest => (more rest).map (a :: ·)) =
      .ok ((i :: items).map Prod.snd, rest) := by
  induction items generalizing i list with
  | nil =>
    cases hlist
    rw [hitems i List.mem_cons_self rest (.inr hrest), Verdict.andThen_ok, hmore,
      if_neg (by rw [hrest]; decide)]
    rfl
  | cons j items ih =>
    cases hlist with
    | @cons _ _ _ comma ts hcomma hlist =>
      obtain ⟨hi, hitems⟩ := List.forall_mem_cons.mp hitems
      have hpeek : peek (comma :: (ts ++ rest)) = .comma := hcomma
      rw [List.append_assoc, List.cons_append, hi _ (.inl hpeek), Verdict.andThen_ok, hmore,
        if_pos hpeek, List.tail_cons, ih hitems hlist]
      rfl

/-- A name is one token with its payload, and is read whatever follows. -/
theorem identifier_complete {ts : List Token} {name : String} (h : IsName ts name)
    (rest : List Token) : (identifier eof (ts ++ rest)).verdict = .ok (name, rest) := by
  obtain ⟨t, rfl, hkind, hname⟩ := h
  exact (verdict_expectPayload_eq_ok eof).mpr ⟨t, rfl, hkind, hname⟩

variable (eof) in
/-- A list of parameters is read, the empty one included. -/
theorem params_complete {params : List (List Token × String)} {list rest : List Token}
    (hparams : ∀ p ∈ params, IsName p.1 p.2) (hlist : Joined (params.map Prod.fst) list)
    (hrest : peek rest = .rparen) :
    (Parser.params eof (list ++ rest)).verdict = .ok (params.map Prod.snd, rest) := by
  rw [verdict_params]
  cases params with
  | nil =>
    cases hlist
    rw [if_neg (by rw [List.nil_append, hrest]; decide)]
    rfl
  | cons p params =>
    have hpeek : peek (list ++ rest) = .ident := by
      obtain ⟨us, rfl⟩ := hlist.exists_append
      obtain ⟨t, ht, hkind, -⟩ := hparams p List.mem_cons_self
      rw [ht]
      exact hkind
    rw [if_pos hpeek]
    exact read_items (fun ts => (identifier eof ts).verdict)
      (fun ts => (moreParams eof ts).verdict) (verdict_moreParams eof)
      (fun q hq rest _ => identifier_complete (hparams q hq) rest) hlist hrest

/-! ### Phrases

One lemma for each rule of the grammar that does more than to pass from a layer to the next. Each of
them takes the readings of the parts as hypotheses, so that the induction below has nothing left to
do but to choose the lemma. -/

variable (eof) in
/-- How the productions read a phrase of a layer with the tree `e`. The layers of operations share
a loop, and the phrase is what the loop has read so far.

A sum can only stand where the loop was started with the power 0. A product can also be the right
operand of a sum, or a sum of one operand, and its statement is about every power that lets a
product continue, up to 3. -/
def Reads : Layer → List Token → Expr → Prop
  | .statement, ts, e => ∀ rest, Ends .statement rest →
      (statement eof (ts ++ rest)).verdict = .ok (e, rest)
  | .sum, ts, e => ∀ rest, Ends .product rest →
      (operation eof 0 (ts ++ rest)).verdict = (operators eof 0 e rest).verdict
  | .product, ts, e => ∀ least ≤ 3, ∀ rest, Ends .signed rest →
      (operation eof least (ts ++ rest)).verdict = (operators eof least e rest).verdict
  | .signed, ts, e => ∀ rest, Ends .signed rest →
      (unary eof (ts ++ rest)).verdict = .ok (e, rest)
  | .power, ts, e => ∀ rest, Ends .power rest →
      (power eof (ts ++ rest)).verdict = .ok (e, rest)
  | .application, ts, e => ∀ rest, Ends .application rest →
      (application eof (ts ++ rest)).verdict = .ok (e, rest)
  | .primary, ts, e => ∀ rest, (primary eof (ts ++ rest)).verdict = .ok (e, rest)

variable (eof) in
/-- A list of arguments is read, the empty one included: an argument never starts with the closing
parenthesis that the reader looks for first. -/
theorem arguments_complete {args : List (List Token × Expr)} {list rest : List Token}
    (hargs : ∀ a ∈ args, Derives .marked .statement a.1 a.2)
    (hreads : ∀ a ∈ args, Reads eof .statement a.1 a.2)
    (hlist : Joined (args.map Prod.fst) list) (hrest : peek rest = .rparen) :
    (arguments eof (list ++ rest)).verdict = .ok (args.map Prod.snd, rest) := by
  rw [verdict_arguments]
  cases args with
  | nil =>
    cases hlist
    rw [if_pos (by rwa [List.nil_append])]
    rfl
  | cons a args =>
    have hpeek : peek (list ++ rest) ≠ .rparen := by
      obtain ⟨us, rfl⟩ := hlist.exists_append
      rw [List.append_assoc]
      exact peek_append_ne (hargs a List.mem_cons_self) _ (by decide)
    rw [if_neg hpeek]
    refine read_items (fun ts => (statement eof ts).verdict)
      (fun ts => (moreArguments eof ts).verdict) (verdict_moreArguments eof)
      (fun b hb rest hrest => hreads b hb rest ?_) hlist hrest
    rcases hrest with hrest | hrest
    · exact ends_of_kind hrest (by decide)
    · exact ends_of_kind hrest (by decide)

theorem statement_func_complete {opening list body : List Token}
    {params : List (List Token × String)} {close arrow : Token} {e : Expr}
    (hopen : opening.map Token.kind = Dialect.marked.opening)
    (hparams : ∀ p ∈ params, IsName p.1 p.2) (hlist : Joined (params.map Prod.fst) list)
    (hclose : close.kind = .rparen) (harrow : arrow.kind = .arrow)
    (hbody : Reads eof .statement body e) :
    Reads eof .statement (opening ++ list ++ close :: arrow :: body)
      (.func (params.map Prod.snd) e) := by
  intro rest hrest
  obtain ⟨mark, l, rfl, hmark, hl⟩ := Dialect.opening_marked hopen
  have hparams := params_complete eof hparams hlist
    (show peek (close :: arrow :: (body ++ rest)) = .rparen from hclose)
  rw [List.append_assoc, List.append_assoc, List.cons_append, List.cons_append, List.cons_append,
    List.cons_append, List.nil_append,
    verdict_statement_func eof (show peek (mark :: _) = .func from hmark),
    verdict_expect_of_kind eof hmark, Verdict.andThen_ok,
    verdict_expect_of_kind eof hl, Verdict.andThen_ok, hparams,
    Verdict.andThen_ok, verdict_expect_of_kind eof hclose, Verdict.andThen_ok,
    verdict_expect_of_kind eof harrow, Verdict.andThen_ok, hbody rest hrest, Verdict.map_ok]

theorem statement_declare_complete {kw assign : Token} {ts value : List Token} {name : String}
    {e : Expr} (hkw : kw.kind = .kwLet) (hname : IsName ts name) (hassign : assign.kind = .assign)
    (hvalue : Reads eof .statement value e) :
    Reads eof .statement (kw :: (ts ++ assign :: value)) (.declare name e) := by
  intro rest hrest
  rw [List.cons_append, List.append_assoc, List.cons_append,
    verdict_statement_let eof (show peek (kw :: _) = .kwLet from hkw),
    verdict_expect_of_kind eof hkw, Verdict.andThen_ok,
    identifier_complete hname, Verdict.andThen_ok, verdict_expect_of_kind eof hassign,
    Verdict.andThen_ok, hvalue rest hrest, Verdict.map_ok]

/-- A sum is a statement of its own: it starts with neither of the keywords, and behind it the loop
over the operators has nothing more to read. -/
theorem statement_sum_complete {ts : List Token} {e : Expr} (h : Derives .marked .sum ts e)
    (hts : Reads eof .sum ts e) : Reads eof .statement ts e := by
  intro rest hrest
  rw [verdict_statement_other eof (peek_append_ne h rest (by decide))
      (peek_append_ne h rest (by decide)), hts rest (hrest.mono (by decide)),
    verdict_operators_of_stops eof (hrest.stops 0)]

/-- A longer sum. The loop is behind the left operand and reads the right one with the power 2, so
that it takes in factors and leaves the next `+` to the sum. -/
theorem sum_complete {ts us : List Token} {t : Token} {op : BinaryOp} {left right : Expr}
    (hleft : Reads eof .sum ts left) (hop : sumOp? t.kind = some op)
    (hright : Reads eof .product us right) :
    Reads eof .sum (ts ++ t :: us) (.binary op left right) := by
  intro rest hrest
  have hends : Ends .product (t :: (us ++ rest)) := by
    rcases sumOp?_eq_some hop with hk | hk <;> exact ends_of_kind hk (by decide)
  rw [List.append_assoc, List.cons_append, hleft _ hends,
    verdict_operators_sum eof (Nat.zero_le 1) hop,
    hright 2 (by decide) rest (hrest.mono (by decide)),
    verdict_operators_of_stops eof hrest.stops_two, Verdict.andThen_ok]

/-- A longer product, as for sums. The right operand is read with the power 4, which stops in front
of every operator. -/
theorem product_complete {ts us : List Token} {t : Token} {op : BinaryOp} {left right : Expr}
    (hleft : Reads eof .product ts left) (hop : productOp? t.kind = some op)
    (hright : Reads eof .signed us right) :
    Reads eof .product (ts ++ t :: us) (.binary op left right) := by
  intro least hle rest hrest
  have hends : Ends .signed (t :: (us ++ rest)) := by
    rcases productOp?_eq_some hop with hk | hk <;> exact ends_of_kind hk (by decide)
  rw [List.append_assoc, List.cons_append, hleft least hle _ hends,
    verdict_operators_product eof hle hop, verdict_operation, hright rest hrest,
    Verdict.andThen_ok, verdict_operators_of_stops eof (stops_four rest), Verdict.andThen_ok]

theorem sign_complete {t : Token} {ts : List Token} {op : UnaryOp} {e : Expr}
    (hop : sign? t.kind = some op) (h : Reads eof .signed ts e) :
    Reads eof .signed (t :: ts) (.unary op e) := by
  intro rest hrest
  rw [List.cons_append, verdict_unary_sign eof hop, h rest hrest, Verdict.map_ok]

theorem signed_power_complete {ts : List Token} {e : Expr} (h : Derives .marked .power ts e)
    (hts : Reads eof .power ts e) : Reads eof .signed ts e := by
  intro rest hrest
  have hsign : sign? (peek (ts ++ rest)) = none := by
    have hfirst := peek_append h rest
    generalize peek (ts ++ rest) = kind at hfirst
    cases kind <;> first | rfl | exact absurd hfirst (by decide)
  rw [verdict_unary_other eof hsign, hts rest hrest]

/-- A power. The exponent is a signed phrase again, and the reader of powers does not loop: this is
what makes `**` group to the right. -/
theorem power_complete {ts us : List Token} {t : Token} {base exponent : Expr}
    (hbase : Reads eof .application ts base) (hop : t.kind = .power)
    (hexponent : Reads eof .signed us exponent) :
    Reads eof .power (ts ++ t :: us) (.binary .pow base exponent) := by
  intro rest hrest
  have hpeek : peek (t :: (us ++ rest)) = .power := hop
  rw [List.append_assoc, List.cons_append, verdict_power,
    hbase _ (ends_of_kind hpeek (by decide)), Verdict.andThen_ok, if_pos hpeek, List.tail_cons,
    hexponent rest hrest, Verdict.map_ok]

/-- A call. The callee is a primary expression and is read first; the parenthesis behind it is what
tells a call from a plain primary expression. -/
theorem call_complete {ts list : List Token} {opening close : Token} {callee : Expr}
    {args : List (List Token × Expr)} (hcallee : Reads eof .primary ts callee)
    (hopen : opening.kind = .lparen) (hargs : ∀ a ∈ args, Derives .marked .statement a.1 a.2)
    (hreads : ∀ a ∈ args, Reads eof .statement a.1 a.2)
    (hlist : Joined (args.map Prod.fst) list) (hclose : close.kind = .rparen) :
    Reads eof .application (ts ++ opening :: (list ++ [close]))
      (.call callee (args.map Prod.snd)) := by
  intro rest hrest
  have hpeek : peek (opening :: (list ++ close :: rest)) = .lparen := hopen
  have hargs := arguments_complete eof hargs hreads hlist
    (show peek (close :: rest) = .rparen from hclose)
  rw [List.append_assoc, List.cons_append, List.append_assoc, List.singleton_append,
    verdict_application, hcallee, Verdict.andThen_ok, if_pos hpeek, List.tail_cons, hargs,
    Verdict.andThen_ok, verdict_expect_of_kind eof hclose, Verdict.map_ok]

theorem paren_complete {opening close : Token} {ts : List Token} {e : Expr}
    (hopen : opening.kind = .lparen) (h : Reads eof .statement ts e)
    (hclose : close.kind = .rparen) :
    Reads eof .primary (opening :: (ts ++ [close])) (.paren e) := by
  intro rest
  have hpeek : peek (opening :: (ts ++ close :: rest)) = .lparen := hopen
  have hinner := h (close :: rest) (ends_of_kind hclose (by decide))
  rw [List.cons_append, List.append_assoc, List.singleton_append,
    verdict_primary_other eof (by rw [hpeek]; decide) (by rw [hpeek]; decide),
    verdict_expect_of_kind eof hopen, Verdict.andThen_ok, hinner, Verdict.andThen_ok,
    verdict_expect_of_kind eof hclose, Verdict.map_ok]

variable (eof) in
/-- **Every phrase of the grammar is read.** The cases that pass to the next layer are done in
place: the reader of the upper layer finds that the token behind the phrase is not the operator it
looks for, and returns what the reader of the lower layer gave it. -/
theorem reads_of_derives {layer : Layer} {ts : List Token} {e : Expr}
    (h : Derives .marked layer ts e) : Reads eof layer ts e := by
  induction h with
  | func hopen hparams hlist hclose harrow _ ih =>
    exact statement_func_complete hopen hparams hlist hclose harrow ih
  | declare hkw hname hassign _ ih => exact statement_declare_complete hkw hname hassign ih
  | ofSum h ih => exact statement_sum_complete h ih
  | sum _ hop _ ihleft ihright => exact sum_complete ihleft hop ihright
  | ofProduct _ ih => exact fun rest hrest => ih 0 (Nat.zero_le 3) rest (hrest.mono (by decide))
  | product _ hop _ ihleft ihright => exact product_complete ihleft hop ihright
  | ofSigned _ ih =>
    intro least _ rest hrest
    rw [verdict_operation, ih rest hrest, Verdict.andThen_ok]
  | sign hop _ ih => exact sign_complete hop ih
  | ofPower h ih => exact signed_power_complete h ih
  | power _ hop _ ihbase ihexponent => exact power_complete ihbase hop ihexponent
  | ofApplication _ ih =>
    intro rest hrest
    rw [verdict_power, ih rest (hrest.mono (by decide)), Verdict.andThen_ok,
      if_neg (hrest.ne (by decide))]
  | call _ hopen hargs hlist hclose ihcallee ihargs =>
    exact call_complete ihcallee hopen hargs ihargs hlist hclose
  | ofPrimary _ ih =>
    intro rest hrest
    rw [verdict_application, ih rest, Verdict.andThen_ok, if_neg (hrest.ne (by decide))]
  | @var ts _ hname =>
    intro rest
    have hpeek : peek (ts ++ rest) = .ident := by
      obtain ⟨t, rfl, hkind, -⟩ := hname
      exact hkind
    rw [verdict_primary_ident eof hpeek, identifier_complete hname, Verdict.map_ok]
  | int hvalue =>
    intro rest
    obtain ⟨t, rfl, hkind, hvalue⟩ := hvalue
    rw [List.singleton_append, verdict_primary_int eof (show peek (t :: _) = .int from hkind),
      (verdict_expectPayload_eq_ok eof).mpr ⟨t, rfl, hkind, hvalue⟩, Verdict.map_ok]
  | paren hopen _ hclose ih => exact paren_complete hopen ih hclose

/-! ### Programs

A program is statements with line breaks in between. Behind the last statement there may be line
breaks too, and behind a line break there may be another one or the end of the input, so that the
loop decides only at the first token that is no line break. -/

/-- The line breaks behind a statement, up to the next statement or the end of the input. The
induction is over the breaks: all but the last are skipped one at a time. -/
theorem verdict_moreStatements_breaks {breaks rest : List Token} (hne : breaks ≠ [])
    (hbreaks : LineBreaks breaks) (hrest : peek rest ≠ .newline) :
    (moreStatements eof (breaks ++ rest)).verdict =
      if peek rest = .eof then .ok ([], rest)
      else
        (statement eof rest).verdict.andThen fun e rest =>
          (moreStatements eof rest).verdict.map (e :: ·) := by
  induction breaks with
  | nil => exact absurd rfl hne
  | cons t breaks ih =>
    obtain ⟨ht, hbreaks⟩ := List.forall_mem_cons.mp hbreaks
    rw [List.cons_append, verdict_moreStatements_newline eof ht]
    cases breaks with
    | nil => rw [List.nil_append, if_neg hrest]
    | cons u breaks =>
      have hu : peek (u :: breaks ++ rest) = .newline := hbreaks u List.mem_cons_self
      rw [if_pos hu, ih (List.cons_ne_nil u breaks) hbreaks]

variable (eof) in
/-- The statements of a program are read up to its end. -/
theorem statements_complete {ts rest : List Token} {es : List Expr} (h : Program .marked ts es)
    (hrest : peek rest = .eof) :
    ((statement eof (ts ++ rest)).verdict.andThen fun e rest =>
      (moreStatements eof rest).verdict.map (e :: ·)) = .ok (es, rest) := by
  -- a statement is followed by a line break, or it is the last and the end of the input follows
  have hends : ∀ {breaks us}, LineBreaks breaks → (breaks = [] → us = rest) →
      Ends .statement (breaks ++ us) := by
    intro breaks us hbreaks hus
    cases breaks with
    | nil =>
      rw [hus rfl]
      exact ends_of_kind hrest (by decide)
    | cons t breaks => exact ends_of_kind (hbreaks t List.mem_cons_self) (by decide)
  induction h with
  | @last ts breaks e h hbreaks =>
    rw [List.append_assoc, reads_of_derives eof h _ (hends hbreaks fun _ => rfl),
      Verdict.andThen_ok]
    by_cases hne : breaks = []
    · rw [hne, List.nil_append, verdict_moreStatements_of_ne eof (by rw [hrest]; decide),
        Verdict.map_ok]
    · rw [verdict_moreStatements_breaks hne hbreaks (by rw [hrest]; decide), if_pos hrest,
        Verdict.map_ok]
  | @cons ts breaks us e es h hne hbreaks hus ih =>
    have hfirst : ∀ kind, kind ∉ Layer.statement.first .marked → peek (us ++ rest) ≠ kind := by
      intro kind hkind
      cases hus with
      | last h _ | cons h _ _ _ =>
        rw [List.append_assoc]
        exact peek_append_ne h _ hkind
    rw [List.append_assoc, List.append_assoc,
      reads_of_derives eof h _ (hends hbreaks fun hnil => absurd hnil hne), Verdict.andThen_ok,
      verdict_moreStatements_breaks hne hbreaks (hfirst _ (by decide)),
      if_neg (hfirst _ (by decide)), ih, Verdict.map_ok]

variable (eof) in
/-- A program of the grammar is accepted, whatever stands behind the end of the input. -/
theorem program_complete {ts rest : List Token} {es : List Expr} (h : Program .marked ts es)
    (hrest : peek rest = .eof) : (program eof (ts ++ rest)).verdict = .ok (es, rest.tail) := by
  obtain ⟨e, us, he, hmore⟩ := Verdict.andThen_eq_ok.mp (statements_complete eof h hrest)
  obtain ⟨es, hread, rfl⟩ := Verdict.map_eq_ok.mp hmore
  rw [verdict_program, he, Verdict.andThen_ok, hread, Verdict.andThen_ok,
    (verdict_endOfInput_eq_ok eof).mpr ⟨hrest, rfl⟩, Verdict.map_ok]

end Parser

end ArrowCalc
