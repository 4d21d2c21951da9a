import ArrowCalc.Proofs.Parser.Verdict

/-!
# What the parser accepts is in the grammar

A production that returns a value has consumed a phrase of its layer, and the value is the tree of
the phrase.

## The circle

The productions call each other in a circle, and each turn of the circle costs a token. So the
soundness of a production at `n` tokens is proved from the soundness of the three productions that
start over, `statement`, `operation` and `unary`, at fewer than `n` tokens (`SoundBelow`), and from
the soundness of the productions below it at the same tokens. One induction on `n` closes the
circle.

An induction along the recursion of the productions would be the obvious choice. It has one motive
for each of the nine productions and hands all of them to every case. Here a production has one
lemma with the hypothesis that it needs, and a rule that is added to the grammar touches the lemma
of its production alone. The later modules about the parser, on errors and on locality, use the same
scheme.

## What the loop over the operators knows

The loop needs to know more than soundness. It works on one accumulator for both layers of
operators, and is right only because the right operand of a `+` was read as far as possible: no `*`
can follow it (`Stops`). That a production stops where it has to is therefore part of what is proved
about operations. The accumulator is described by `Operand`, which says of a sum that no factor
follows.

## Main definitions

* `Parser.Covers`, `Parser.Lists` — what was consumed is a phrase, or a list of phrases
* `Parser.SoundBelow` — the induction hypothesis

## Main results

* `Parser.soundBelow` — the productions are sound
* `Parser.program_sound` — an accepted program is a program of the grammar
-/

namespace ArrowCalc

namespace Parser

open Grammar

variable {eof : Span}

/-- The tokens of `ts` in front of `rest` are a phrase of the layer with the tree `e`. What was
consumed is not an output of a production, only what was left is, and so it is existentially
quantified here and in everything that follows. -/
def Covers (layer : Layer) (ts : List Token) (e : Expr) (rest : List Token) : Prop :=
  ∃ pre, ts = pre ++ rest ∧ Derives .marked layer pre e

/-- The tokens of `ts` in front of `rest` are items with the values `as`, joined by commas. -/
def Lists {α : Type} (Item : List Token → α → Prop) (ts : List Token) (as : List α)
    (rest : List Token) : Prop :=
  ∃ (items : List (List Token × α)) (list : List Token), ts = list ++ rest ∧
    (∀ i ∈ items, Item i.1 i.2) ∧ Joined (items.map Prod.fst) list ∧ as = items.map Prod.snd

/-- The layer of the operations whose operators hold their left side with at least `least`. The
parser starts operations with the powers 0, 2 and 4 only; the layer is defined for all of them,
since the loop does not know with which it was started. -/
def layerOf (least : ℕ) : Layer :=
  if least ≤ 1 then .sum else if least ≤ 3 then .product else .signed

/-! ### Lists of items

Parameters and arguments again share one argument, about a loop that is given by its equation. -/

theorem Lists.nil {α : Type} (Item : List Token → α → Prop) (ts : List Token) :
    Lists Item ts [] ts :=
  ⟨[], [], rfl, fun _ hi => absurd hi List.not_mem_nil, .nil, rfl⟩

theorem Lists.single {α : Type} {Item : List Token → α → Prop} {piece : List Token} {a : α}
    (h : Item piece a) (rest : List Token) : Lists Item (piece ++ rest) [a] rest :=
  ⟨[(piece, a)], piece, rfl, List.forall_mem_singleton.mpr h, .single piece, rfl⟩

/-- One more item in front of a list that is not empty, with the comma between them. -/
theorem Lists.cons {α : Type} {Item : List Token → α → Prop} {piece ts rest : List Token}
    {comma : Token} {a b : α} {as : List α} (ha : Item piece a) (hcomma : comma.kind = .comma)
    (h : Lists Item ts (b :: as) rest) :
    Lists Item (piece ++ comma :: ts) (a :: b :: as) rest := by
  obtain ⟨items, list, rfl, hitems, hlist, has⟩ := h
  cases items with
  | nil => cases has
  | cons i items =>
    refine ⟨(piece, a) :: i :: items, piece ++ comma :: list, ?_, ?_, ?_, ?_⟩
    · rw [List.append_assoc, List.cons_append]
    · exact List.forall_mem_cons.mpr ⟨ha, hitems⟩
    · exact .cons piece hcomma hlist
    · rw [has]
      rfl

/-- A loop over items behind commas, continued from the first item. Its items have to be sound on
fewer tokens than the loop has in front of it. -/
theorem lists_of_more {α : Type} {Item : List Token → α → Prop} (item : List Token → Verdict α)
    (more : List Token → Verdict (List α))
    (hmore : ∀ ts, more ts =
      if peek ts = .comma then
        (item ts.tail).andThen fun a rest => (more rest).map (a :: ·)
      else .ok ([], ts))
    {n : ℕ} (hitem : ∀ {ts a rest}, ts.length < n → item ts = .ok (a, rest) →
      rest.length < ts.length ∧ ∃ piece, ts = piece ++ rest ∧ Item piece a)
    {ts rest piece : List Token} {a : α} {as : List α} (hts : ts.length ≤ n) (ha : Item piece a)
    (h : more ts = .ok (as, rest)) : Lists Item (piece ++ ts) (a :: as) rest := by
  induction n generalizing ts piece a as with
  | zero =>
    obtain rfl := List.length_eq_zero_iff.mp (Nat.le_zero.mp hts)
    rw [hmore] at h
    cases h
    exact .single ha []
  | succ n ih =>
    rw [hmore] at h
    split at h
    · next hcomma =>
      cases ts with
      | nil => cases hcomma
      | cons c us =>
        obtain ⟨b, vs, hb, h⟩ := Verdict.andThen_eq_ok.mp h
        obtain ⟨bs, hbs, rfl⟩ := Verdict.map_eq_ok.mp h
        have hus : us.length ≤ n := Nat.le_of_succ_le_succ hts
        obtain ⟨hlt, piece', rfl, hpiece⟩ := hitem (Nat.lt_succ_of_le hus) hb
        have hvs : vs.length ≤ n := Nat.le_trans (Nat.le_of_lt hlt) hus
        exact .cons ha hcomma (ih (fun h => hitem (Nat.lt_succ_of_lt h)) hvs hpiece hbs)
    · cases h
      exact .single ha _

theorem identifier_sound {ts rest : List Token} {name : String}
    (h : (identifier eof ts).verdict = .ok (name, rest)) :
    ∃ piece, ts = piece ++ rest ∧ IsName piece name := by
  obtain ⟨t, rfl, hkind, hname⟩ := (verdict_expectPayload_eq_ok eof).mp h
  exact ⟨[t], rfl, t, rfl, hkind, hname⟩

theorem params_sound {ts rest : List Token} {names : List String}
    (h : (params eof ts).verdict = .ok (names, rest)) : Lists IsName ts names rest := by
  rw [verdict_params] at h
  split at h
  · obtain ⟨name, us, hname, h⟩ := Verdict.andThen_eq_ok.mp h
    obtain ⟨more, hmore, rfl⟩ := Verdict.map_eq_ok.mp h
    obtain ⟨piece, rfl, hpiece⟩ := identifier_sound hname
    refine lists_of_more (fun ts => (identifier eof ts).verdict)
      (fun ts => (moreParams eof ts).verdict) (verdict_moreParams eof) (fun _ hitem => ?_)
      (Nat.le_refl _) hpiece hmore
    exact ⟨Outcome.length_lt_of_verdict hitem, identifier_sound hitem⟩
  · cases h
    exact .nil _ _

/-! ### Expressions

In each lemma the equation of the production is taken apart into the readings of its parts. Each
part gives a phrase by its own lemma or by the hypothesis, and the rule of the grammar puts them
together. What remains is the bookkeeping of the tokens: the parts in a row are what was consumed.
-/

variable (eof) in
/-- The productions that start over are sound on fewer than `n` tokens. For operations this includes
that they stop where no further operator of theirs follows. -/
structure SoundBelow (n : ℕ) : Prop where
  statement : ∀ {ts e rest}, ts.length < n → (statement eof ts).verdict = .ok (e, rest) →
    Covers .statement ts e rest
  operation : ∀ {least ts e rest}, ts.length < n →
    (operation eof least ts).verdict = .ok (e, rest) →
    Stops least rest ∧ Covers (layerOf least) ts e rest
  unary : ∀ {ts e rest}, ts.length < n → (unary eof ts).verdict = .ok (e, rest) →
    Covers .signed ts e rest

variable {n : ℕ} (hn : SoundBelow eof n) {ts rest : List Token} {e : Expr}

include hn

theorem primary_sound (hts : ts.length ≤ n) (h : (primary eof ts).verdict = .ok (e, rest)) :
    Covers .primary ts e rest := by
  by_cases hident : peek ts = .ident
  · rw [verdict_primary_ident eof hident] at h
    obtain ⟨name, hname, rfl⟩ := Verdict.map_eq_ok.mp h
    obtain ⟨piece, rfl, hpiece⟩ := identifier_sound hname
    exact ⟨piece, rfl, .var hpiece⟩
  by_cases hint : peek ts = .int
  · rw [verdict_primary_int eof hint] at h
    obtain ⟨value, hvalue, rfl⟩ := Verdict.map_eq_ok.mp h
    obtain ⟨t, rfl, hkind, hvalue⟩ := (verdict_expectPayload_eq_ok eof).mp hvalue
    exact ⟨[t], rfl, .int ⟨t, rfl, hkind, hvalue⟩⟩
  · rw [verdict_primary_other eof hident hint] at h
    obtain ⟨l, us, hopen, hinner⟩ := Verdict.andThen_eq_ok.mp h
    obtain ⟨inner, vs, hstatement, hclosing⟩ := Verdict.andThen_eq_ok.mp hinner
    obtain ⟨r, hclose, rfl⟩ := Verdict.map_eq_ok.mp hclosing
    obtain ⟨rfl, hl⟩ := (verdict_expect_eq_ok eof).mp hopen
    obtain ⟨rfl, hr⟩ := (verdict_expect_eq_ok eof).mp hclose
    obtain ⟨pre, rfl, hpre⟩ := hn.statement (Nat.lt_of_succ_le hts) hstatement
    refine ⟨l :: (pre ++ [r]), ?_, .paren hl hpre hr⟩
    rw [List.cons_append, List.append_assoc, List.singleton_append]

/-- The arguments are read behind the opening parenthesis of a call, hence the strict bound: the
list may start with a statement on all of the tokens. -/
theorem arguments_sound {args : List Expr} (hts : ts.length < n)
    (h : (arguments eof ts).verdict = .ok (args, rest)) :
    Lists (Derives .marked .statement) ts args rest := by
  rw [verdict_arguments] at h
  split at h
  · cases h
    exact .nil _ _
  · obtain ⟨arg, us, harg, h⟩ := Verdict.andThen_eq_ok.mp h
    obtain ⟨more, hmore, rfl⟩ := Verdict.map_eq_ok.mp h
    have hus : us.length ≤ n :=
      Nat.le_of_lt (Nat.lt_trans (Outcome.length_lt_of_verdict harg) hts)
    obtain ⟨piece, rfl, hpiece⟩ := hn.statement hts harg
    refine lists_of_more (fun ts => (statement eof ts).verdict)
      (fun ts => (moreArguments eof ts).verdict) (verdict_moreArguments eof) (fun hlt hitem => ?_)
      hus hpiece hmore
    exact ⟨Outcome.length_lt_of_verdict hitem, hn.statement hlt hitem⟩

theorem application_sound (hts : ts.length ≤ n)
    (h : (application eof ts).verdict = .ok (e, rest)) : Covers .application ts e rest := by
  rw [verdict_application] at h
  obtain ⟨callee, us, hcallee, htail⟩ := Verdict.andThen_eq_ok.mp h
  have hlt := Outcome.length_lt_of_verdict hcallee
  obtain ⟨pre, rfl, hpre⟩ := primary_sound hn hts hcallee
  split at htail
  · next hparen =>
    cases us with
    | nil => cases hparen
    | cons l us =>
      obtain ⟨args, vs, hargs, hclosing⟩ := Verdict.andThen_eq_ok.mp htail
      obtain ⟨r, hclose, rfl⟩ := Verdict.map_eq_ok.mp hclosing
      obtain ⟨rfl, hr⟩ := (verdict_expect_eq_ok eof).mp hclose
      have hus : us.length < n := by
        rw [List.length_cons] at hlt
        omega
      obtain ⟨items, list, rfl, hitems, hlist, rfl⟩ := arguments_sound hn hus hargs
      refine ⟨pre ++ l :: (list ++ [r]), ?_, .call hpre hparen hitems hlist hr⟩
      simp only [List.append_assoc, List.cons_append, List.nil_append]
  · cases htail
    exact ⟨pre, rfl, .ofPrimary hpre⟩

theorem power_sound (hts : ts.length ≤ n) (h : (power eof ts).verdict = .ok (e, rest)) :
    Covers .power ts e rest := by
  rw [verdict_power] at h
  obtain ⟨base, us, hbase, htail⟩ := Verdict.andThen_eq_ok.mp h
  have hlt := Outcome.length_lt_of_verdict hbase
  obtain ⟨pre, rfl, hpre⟩ := application_sound hn hts hbase
  split at htail
  · next hpower =>
    cases us with
    | nil => cases hpower
    | cons t us =>
      obtain ⟨exponent, hexponent, rfl⟩ := Verdict.map_eq_ok.mp htail
      have hus : us.length < n := by
        rw [List.length_cons] at hlt
        omega
      obtain ⟨mid, rfl, hmid⟩ := hn.unary hus hexponent
      refine ⟨pre ++ t :: mid, ?_, .power hpre hpower hmid⟩
      rw [List.append_assoc, List.cons_append]
  · cases htail
    exact ⟨pre, rfl, .ofApplication hpre⟩

theorem unary_sound (hts : ts.length ≤ n) (h : (unary eof ts).verdict = .ok (e, rest)) :
    Covers .signed ts e rest := by
  cases hsign : sign? (peek ts) with
  | none =>
    rw [verdict_unary_other eof hsign] at h
    obtain ⟨pre, rfl, hpre⟩ := power_sound hn hts h
    exact ⟨pre, rfl, .ofPower hpre⟩
  | some op =>
    cases ts with
    | nil => cases hsign
    | cons t us =>
      rw [verdict_unary_sign eof hsign] at h
      obtain ⟨operand, hoperand, rfl⟩ := Verdict.map_eq_ok.mp h
      obtain ⟨pre, rfl, hpre⟩ := hn.unary (Nat.lt_of_succ_le hts) hoperand
      exact ⟨t :: pre, rfl, .sign hsign hpre⟩

variable (least : ℕ) in
/-- What the loop over the operators knows of the operand `left` in front of `ts`, which was read
from `pre`. A sum cannot become a factor any more, because no factor follows it. -/
inductive Operand (pre : List Token) (left : Expr) (ts : List Token) : Prop where
  | signed (h : Derives .marked .signed pre left)
  | product (hle : least ≤ 3) (h : Derives .marked .product pre left)
  | sum (hle : least ≤ 1) (h : Derives .marked .sum pre left) (hstops : Stops 2 ts)

omit hn in
/-- Whatever the loop has read so far is a phrase of its layer, so that it may stop at any time. -/
theorem Operand.derives {least : ℕ} {pre : List Token} {left : Expr}
    (h : Operand least pre left ts) : Derives .marked (layerOf least) pre left := by
  rw [layerOf]
  cases h with
  | signed h =>
    split
    · exact .ofProduct (.ofSigned h)
    · split
      · exact .ofSigned h
      · exact h
  | product hle h =>
    split
    · exact .ofProduct h
    · exact h
  | sum hle h _ => rwa [if_pos hle]

omit hn in
/-- What stands in front of a `*` is no sum. This is the step in which precedence is decided: the
loop is about to make a product of the operand, and the grammar allows that for a product only. -/
theorem Operand.product_of_op {least : ℕ} {pre us : List Token} {left : Expr} {t : Token}
    {op : BinaryOp} (h : Operand least pre left (t :: us)) (hop : productOp? t.kind = some op) :
    Derives .marked .product pre left := by
  cases h with
  | signed h => exact .ofSigned h
  | product _ h => exact h
  | sum _ _ hstops =>
    have hlt : 3 < 2 := hstops 3 4 (productOp?_eq_some_iff.mp hop).1
    exact absurd hlt (by decide)

/-- The loop over the operators, by induction on the tokens that are left. The tokens `pre` of the
operand so far are carried along, as they become part of the phrase. -/
theorem operators_sound {least : ℕ} {pre : List Token} {left : Expr} (hts : ts.length ≤ n)
    (hleft : Operand least pre left ts)
    (h : (operators eof least left ts).verdict = .ok (e, rest)) :
    Stops least rest ∧
      ∃ mid, ts = mid ++ rest ∧ Derives .marked (layerOf least) (pre ++ mid) e := by
  induction hlen : ts.length using Nat.strongRecOn generalizing pre left ts with
  | _ len ih =>
    -- what is left to do once an operator `t` and its right operand `mid` were read
    have hnext : ∀ {t : Token} {mid vs : List Token} {next : Expr}, ts = t :: (mid ++ vs) →
        Operand least (pre ++ t :: mid) next vs →
        (operators eof least next vs).verdict = .ok (e, rest) →
        Stops least rest ∧
          ∃ mid, ts = mid ++ rest ∧ Derives .marked (layerOf least) (pre ++ mid) e := by
      rintro t mid vs next rfl hnext hread
      simp only [List.length_cons, List.length_append] at hlen hts
      obtain ⟨hstops, mid', rfl, hmid⟩ := ih vs.length (by omega) (by omega) hnext hread rfl
      refine ⟨hstops, t :: (mid ++ mid'), ?_, ?_⟩
      · rw [List.cons_append, List.append_assoc]
      · rwa [List.append_assoc] at hmid
    rcases stops_or_operator least ts with hstops | ⟨t, us, op, rfl, hop, hle⟩ |
      ⟨t, us, op, rfl, hop, hle⟩
    · rw [verdict_operators_of_stops eof hstops] at h
      cases h
      refine ⟨hstops, [], rfl, ?_⟩
      rw [List.append_nil]
      exact hleft.derives
    · rw [verdict_operators_sum eof hle hop] at h
      obtain ⟨right, vs, hright, hmore⟩ := Verdict.andThen_eq_ok.mp h
      obtain ⟨hstops, mid, rfl, hmid⟩ := hn.operation (Nat.lt_of_succ_le hts) hright
      -- the right operand was read as far as possible, so the sum stays a sum
      have hsum := hleft.derives
      rw [layerOf, if_pos hle] at hsum
      exact hnext rfl (.sum hle (.sum hsum hop hmid) hstops) hmore
    · rw [verdict_operators_product eof hle hop] at h
      obtain ⟨right, vs, hright, hmore⟩ := Verdict.andThen_eq_ok.mp h
      obtain ⟨-, mid, rfl, hmid⟩ := hn.operation (Nat.lt_of_succ_le hts) hright
      have hproduct := hleft.product_of_op hop
      exact hnext rfl (.product hle (.product hproduct hop hmid)) hmore

theorem operation_sound {least : ℕ} (hts : ts.length ≤ n)
    (h : (operation eof least ts).verdict = .ok (e, rest)) :
    Stops least rest ∧ Covers (layerOf least) ts e rest := by
  rw [verdict_operation] at h
  obtain ⟨left, us, hleft, hoperators⟩ := Verdict.andThen_eq_ok.mp h
  have hlt := Outcome.length_lt_of_verdict hleft
  obtain ⟨pre, rfl, hpre⟩ := unary_sound hn hts hleft
  obtain ⟨hstops, mid, rfl, hmid⟩ :=
    operators_sound hn (Nat.le_of_lt (Nat.lt_of_lt_of_le hlt hts)) (.signed hpre) hoperators
  exact ⟨hstops, pre ++ mid, (List.append_assoc ..).symm, hmid⟩

theorem statement_func_sound (hts : ts.length ≤ n) (hfunc : peek ts = .func)
    (h : (statement eof ts).verdict = .ok (e, rest)) : Covers .statement ts e rest := by
  rw [verdict_statement_func eof hfunc] at h
  obtain ⟨mark, us, hmark, h₁⟩ := Verdict.andThen_eq_ok.mp h
  obtain ⟨l, vs, hl, h₂⟩ := Verdict.andThen_eq_ok.mp h₁
  obtain ⟨names, ws, hnames, h₃⟩ := Verdict.andThen_eq_ok.mp h₂
  obtain ⟨r, xs, hr, h₄⟩ := Verdict.andThen_eq_ok.mp h₃
  obtain ⟨arrow, ys, harrow, h₅⟩ := Verdict.andThen_eq_ok.mp h₄
  obtain ⟨body, hbody, rfl⟩ := Verdict.map_eq_ok.mp h₅
  obtain ⟨rfl, kmark⟩ := (verdict_expect_eq_ok eof).mp hmark
  obtain ⟨rfl, kl⟩ := (verdict_expect_eq_ok eof).mp hl
  obtain ⟨params, list, rfl, hparams, hlist, rfl⟩ := params_sound hnames
  obtain ⟨rfl, kr⟩ := (verdict_expect_eq_ok eof).mp hr
  obtain ⟨rfl, karrow⟩ := (verdict_expect_eq_ok eof).mp harrow
  have hys : ys.length < n := by
    simp only [List.length_cons, List.length_append] at hts
    omega
  obtain ⟨pre, rfl, hpre⟩ := hn.statement hys hbody
  have hopen : [mark, l].map Token.kind = Dialect.marked.opening := by
    rw [List.map_cons, List.map_singleton, kmark, kl]
    rfl
  refine ⟨[mark, l] ++ list ++ r :: arrow :: pre, ?_, .func hopen hparams hlist kr karrow hpre⟩
  simp only [List.append_assoc, List.cons_append, List.nil_append]

theorem statement_let_sound (hts : ts.length ≤ n) (hlet : peek ts = .kwLet)
    (h : (statement eof ts).verdict = .ok (e, rest)) : Covers .statement ts e rest := by
  rw [verdict_statement_let eof hlet] at h
  obtain ⟨kw, us, hkw, h₁⟩ := Verdict.andThen_eq_ok.mp h
  obtain ⟨name, vs, hname, h₂⟩ := Verdict.andThen_eq_ok.mp h₁
  obtain ⟨assign, ws, hassign, h₃⟩ := Verdict.andThen_eq_ok.mp h₂
  obtain ⟨value, hvalue, rfl⟩ := Verdict.map_eq_ok.mp h₃
  obtain ⟨rfl, kkw⟩ := (verdict_expect_eq_ok eof).mp hkw
  obtain ⟨piece, rfl, hpiece⟩ := identifier_sound hname
  obtain ⟨rfl, kassign⟩ := (verdict_expect_eq_ok eof).mp hassign
  have hws : ws.length < n := by
    simp only [List.length_cons, List.length_append] at hts
    omega
  obtain ⟨pre, rfl, hpre⟩ := hn.statement hws hvalue
  refine ⟨kw :: (piece ++ assign :: pre), ?_, .declare kkw hpiece kassign hpre⟩
  rw [List.cons_append, List.append_assoc, List.cons_append]

theorem statement_sound (hts : ts.length ≤ n) (h : (statement eof ts).verdict = .ok (e, rest)) :
    Covers .statement ts e rest := by
  by_cases hfunc : peek ts = .func
  · exact statement_func_sound hn hts hfunc h
  by_cases hlet : peek ts = .kwLet
  · exact statement_let_sound hn hts hlet h
  · rw [verdict_statement_other eof hfunc hlet] at h
    obtain ⟨-, pre, rfl, hpre⟩ := operation_sound hn hts h
    exact ⟨pre, rfl, .ofSum hpre⟩

omit hn in
variable (eof) in
/-- **The productions are sound**, on any number of tokens. -/
theorem soundBelow (n : ℕ) : SoundBelow eof n := by
  induction n with
  | zero => exact ⟨fun h => absurd h (Nat.not_lt_zero _), fun h => absurd h (Nat.not_lt_zero _),
      fun h => absurd h (Nat.not_lt_zero _)⟩
  | succ n ih =>
    exact ⟨fun h => statement_sound ih (Nat.le_of_lt_succ h),
      fun h => operation_sound ih (Nat.le_of_lt_succ h),
      fun h => unary_sound ih (Nat.le_of_lt_succ h)⟩

omit hn

/-! ### Programs

The parser stops at the first end of the input, and does not care whether it is listed. What it
accepts is therefore stated about the tokens in front of that end. -/

/-- The loop over the statements, behind the statement `pre` and the line breaks `breaks`. -/
theorem moreStatements_sound {pre breaks : List Token} {es : List Expr}
    (hpre : Derives .marked .statement pre e) (hbreaks : LineBreaks breaks)
    (h : (moreStatements eof ts).verdict = .ok (es, rest)) :
    ∃ mid, ts = mid ++ rest ∧ Program .marked (pre ++ (breaks ++ mid)) (e :: es) := by
  -- line breaks that were read are kept in `breaks` until a statement or the end comes
  induction hlen : ts.length using Nat.strongRecOn generalizing pre breaks ts e es with
  | _ len ih =>
    by_cases hnewline : peek ts = .newline
    · cases ts with
      | nil => cases hnewline
      | cons t ts =>
        have hbreaks' : LineBreaks (breaks ++ [t]) :=
          List.forall_mem_append.mpr ⟨hbreaks, List.forall_mem_singleton.mpr hnewline⟩
        rw [List.length_cons] at hlen
        rw [verdict_moreStatements_newline eof hnewline] at h
        split at h
        · obtain ⟨mid, rfl, hmid⟩ := ih ts.length (by omega) hpre hbreaks' h rfl
          rw [List.append_assoc] at hmid
          exact ⟨t :: mid, rfl, hmid⟩
        · split at h
          · cases h
            exact ⟨[t], rfl, .last hpre hbreaks'⟩
          · obtain ⟨e', us, he, hmore⟩ := Verdict.andThen_eq_ok.mp h
            obtain ⟨es, hread, rfl⟩ := Verdict.map_eq_ok.mp hmore
            obtain ⟨pre', rfl, hpre'⟩ := (soundBelow eof _).statement (Nat.lt_succ_self _) he
            rw [List.length_append] at hlen
            obtain ⟨mid, rfl, hmid⟩ :=
              ih us.length (by omega) hpre' (List.forall_mem_nil _) hread rfl
            have hprogram := Program.cons hpre (List.append_ne_nil_of_right_ne_nil breaks
              (List.cons_ne_nil t [])) hbreaks' hmid
            rw [List.append_assoc] at hprogram
            refine ⟨t :: (pre' ++ mid), ?_, hprogram⟩
            rw [List.cons_append, List.append_assoc]
    · rw [verdict_moreStatements_of_ne eof hnewline] at h
      cases h
      refine ⟨[], rfl, ?_⟩
      rw [List.append_nil]
      exact .last hpre hbreaks

theorem takeWhile_append_of_peek {pre : List Token} (hpre : ∀ t ∈ pre, t.kind ≠ .eof)
    (hrest : peek rest = .eof) : (pre ++ rest).takeWhile (·.kind ≠ .eof) = pre := by
  rw [List.takeWhile_append_of_pos fun t ht => decide_eq_true (hpre t ht)]
  cases rest with
  | nil => exact List.append_nil pre
  | cons t rest =>
    have ht : t.kind = .eof := hrest
    rw [List.takeWhile_cons_of_neg (by rw [ht]; decide), List.append_nil]

/-- **An accepted program is a program of the grammar**, up to the first end of the input. -/
theorem program_sound {es : List Expr} (h : (program eof ts).verdict = .ok (es, rest)) :
    Program .marked (ts.takeWhile (·.kind ≠ .eof)) es := by
  rw [verdict_program] at h
  obtain ⟨e, us, he, h₁⟩ := Verdict.andThen_eq_ok.mp h
  obtain ⟨es, vs, hmore, h₂⟩ := Verdict.andThen_eq_ok.mp h₁
  obtain ⟨⟨⟩, hend, rfl⟩ := Verdict.map_eq_ok.mp h₂
  obtain ⟨heof, -⟩ := (verdict_endOfInput_eq_ok eof).mp hend
  obtain ⟨pre, rfl, hpre⟩ := (soundBelow eof _).statement (Nat.lt_succ_self _) he
  obtain ⟨mid, rfl, hprogram⟩ := moreStatements_sound hpre (List.forall_mem_nil _) hmore
  rw [List.nil_append] at hprogram
  rwa [← List.append_assoc, takeWhile_append_of_peek hprogram.kind_ne_eof heof]

end Parser

end ArrowCalc
