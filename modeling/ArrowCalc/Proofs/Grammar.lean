import ArrowCalc.Expr
import Mathlib.Data.Int.Notation
import Mathlib.Data.List.Basic

/-!
# The grammar of the language

The expressions of the language have layers, from the loosest to the tightest:

```
program     = statement {newline+ statement} newline*
statement   = "(" [ident {"," ident}] ")" "=>" statement
            | "let" ident "=" statement
            | sum
sum         = product {("+" | "-") product}                grouped to the left
product     = signed {("*" | "/") signed}                  grouped to the left
signed      = ("+" | "-") signed | power
power       = application ["**" signed]
application = primary ["(" [statement {"," statement}] ")"]
primary     = ident | int | "(" statement ")"
```

This is the plain dialect. In the marked dialect a `func` token stands in front of the parenthesis
of a function literal, and nothing else is different.

`Derives d layer ts e` says that exactly the tokens `ts` are a phrase of the layer and that `e` is
its tree. A repetition that is grouped to the left is written as left recursion. The relation knows
nothing of lookahead or of the order in which alternatives are tried.

A phrase has no end marker, and it is a list of tokens and not a position in a stream. So nothing is
said about what follows. That the parser stops where a phrase ends is a fact about the parser, and
is proved where the two are compared.

The places of tokens play no part either: only kinds and payloads are looked at. Tokens that differ
in nothing but their places are phrases with the same tree.

## Main definitions

* `Grammar.Derives`, `Grammar.Program` — phrases and programs with their trees

## Main results

* `Grammar.Derives.kind_mem` — the kinds that occur in a phrase
* `Grammar.Derives.exists_first` — the kinds with which a phrase of a layer begins
-/

namespace ArrowCalc

namespace Grammar

/-! ### Phrases

The two dialects share all rules but one, so the dialect is a parameter of the grammar. What is
proved by induction on a phrase is then proved for both. -/

/-- Whether the parenthesis of a function literal has a mark in front of it. -/
inductive Dialect where
  | marked | plain
deriving DecidableEq

/-- The kinds of the tokens in front of the parameters of a function literal. -/
def Dialect.opening : Dialect → List TokenKind
  | marked => [.func, .lparen]
  | plain => [.lparen]

/-- The operators between the products of a sum. -/
def sumOp? : TokenKind → Option BinaryOp
  | .plus => some .add
  | .dash => some .sub
  | _ => none

/-- The operators between the operands of a product. -/
def productOp? : TokenKind → Option BinaryOp
  | .star => some .mul
  | .slash => some .div
  | _ => none

/-- The operators in front of an operand. -/
def sign? : TokenKind → Option UnaryOp
  | .plus => some .plus
  | .dash => some .minus
  | _ => none

/-- The layers of expressions, from the loosest to the tightest. -/
inductive Layer where
  | statement | sum | product | signed | power | application | primary
deriving DecidableEq

/-- The tokens `ts` are the pieces with a comma between each two. -/
inductive Joined : List (List Token) → List Token → Prop where
  | nil : Joined [] []
  | single (piece : List Token) : Joined [piece] piece
  | cons (piece : List Token) {next : List Token} {pieces : List (List Token)} {comma : Token}
      {ts : List Token} (hcomma : comma.kind = .comma) (hrest : Joined (next :: pieces) ts) :
      Joined (piece :: next :: pieces) (piece ++ comma :: ts)

/-- The tokens `ts` are one identifier, which carries the name. -/
def IsName (ts : List Token) (name : String) : Prop :=
  ∃ t, ts = [t] ∧ t.kind = .ident ∧ t.name? = some name

/-- The tokens `ts` are one integer literal, which carries the value. -/
def IsInteger (ts : List Token) (value : ℤ) : Prop :=
  ∃ t, ts = [t] ∧ t.kind = .int ∧ t.int? = some value

/-- The tokens `ts` are a phrase of a layer with the tree `e`. -/
inductive Derives (d : Dialect) : Layer → List Token → Expr → Prop where
  | func {opening list body : List Token} {params : List (List Token × String)}
      {close arrow : Token} {e : Expr} (hopen : opening.map Token.kind = d.opening)
      (hparams : ∀ p ∈ params, IsName p.1 p.2) (hlist : Joined (params.map Prod.fst) list)
      (hclose : close.kind = .rparen) (harrow : arrow.kind = .arrow)
      (hbody : Derives d .statement body e) :
      Derives d .statement (opening ++ list ++ close :: arrow :: body)
        (.func (params.map Prod.snd) e)
  | declare {kw assign : Token} {ts value : List Token} {name : String} {e : Expr}
      (hkw : kw.kind = .kwLet) (hname : IsName ts name) (hassign : assign.kind = .assign)
      (hvalue : Derives d .statement value e) :
      Derives d .statement (kw :: (ts ++ assign :: value)) (.declare name e)
  | ofSum {ts : List Token} {e : Expr} (h : Derives d .sum ts e) : Derives d .statement ts e
  | sum {ts us : List Token} {t : Token} {op : BinaryOp} {left right : Expr}
      (hleft : Derives d .sum ts left) (hop : sumOp? t.kind = some op)
      (hright : Derives d .product us right) :
      Derives d .sum (ts ++ t :: us) (.binary op left right)
  | ofProduct {ts : List Token} {e : Expr} (h : Derives d .product ts e) : Derives d .sum ts e
  | product {ts us : List Token} {t : Token} {op : BinaryOp} {left right : Expr}
      (hleft : Derives d .product ts left) (hop : productOp? t.kind = some op)
      (hright : Derives d .signed us right) :
      Derives d .product (ts ++ t :: us) (.binary op left right)
  | ofSigned {ts : List Token} {e : Expr} (h : Derives d .signed ts e) : Derives d .product ts e
  | sign {t : Token} {ts : List Token} {op : UnaryOp} {e : Expr} (hop : sign? t.kind = some op)
      (h : Derives d .signed ts e) : Derives d .signed (t :: ts) (.unary op e)
  | ofPower {ts : List Token} {e : Expr} (h : Derives d .power ts e) : Derives d .signed ts e
  | power {ts us : List Token} {t : Token} {base exponent : Expr}
      (hbase : Derives d .application ts base) (hop : t.kind = .power)
      (hexponent : Derives d .signed us exponent) :
      Derives d .power (ts ++ t :: us) (.binary .pow base exponent)
  | ofApplication {ts : List Token} {e : Expr} (h : Derives d .application ts e) :
      Derives d .power ts e
  | call {ts list : List Token} {opening close : Token} {callee : Expr}
      {args : List (List Token × Expr)} (hcallee : Derives d .primary ts callee)
      (hopen : opening.kind = .lparen) (hargs : ∀ a ∈ args, Derives d .statement a.1 a.2)
      (hlist : Joined (args.map Prod.fst) list) (hclose : close.kind = .rparen) :
      Derives d .application (ts ++ opening :: (list ++ [close])) (.call callee (args.map Prod.snd))
  | ofPrimary {ts : List Token} {e : Expr} (h : Derives d .primary ts e) :
      Derives d .application ts e
  | var {ts : List Token} {name : String} (h : IsName ts name) : Derives d .primary ts (.var name)
  | int {ts : List Token} {value : ℤ} (h : IsInteger ts value) : Derives d .primary ts (.int value)
  | paren {opening close : Token} {ts : List Token} {e : Expr} (hopen : opening.kind = .lparen)
      (h : Derives d .statement ts e) (hclose : close.kind = .rparen) :
      Derives d .primary (opening :: (ts ++ [close])) (.paren e)

/-- A run of line breaks. -/
def LineBreaks (ts : List Token) : Prop := ∀ t ∈ ts, t.kind = .newline

/-- The tokens `ts` are a program with the statements `es`. -/
inductive Program (d : Dialect) : List Token → List Expr → Prop where
  | last {ts breaks : List Token} {e : Expr} (h : Derives d .statement ts e)
      (hbreaks : LineBreaks breaks) : Program d (ts ++ breaks) [e]
  | cons {ts breaks us : List Token} {e : Expr} {es : List Expr} (h : Derives d .statement ts e)
      (hne : breaks ≠ []) (hbreaks : LineBreaks breaks) (hrest : Program d us es) :
      Program d (ts ++ (breaks ++ us)) (e :: es)

/-! ### The tokens of a phrase

Which kinds can occur in a phrase, and with which it can begin. The parser decides by the next kind,
so these are the facts that show its decisions to be right. -/

theorem sumOp?_eq_some {kind : TokenKind} {op : BinaryOp} (h : sumOp? kind = some op) :
    kind = .plus ∨ kind = .dash := by
  cases kind <;> first | exact .inl rfl | exact .inr rfl | cases h

theorem productOp?_eq_some {kind : TokenKind} {op : BinaryOp} (h : productOp? kind = some op) :
    kind = .star ∨ kind = .slash := by
  cases kind <;> first | exact .inl rfl | exact .inr rfl | cases h

theorem sign?_eq_some {kind : TokenKind} {op : UnaryOp} (h : sign? kind = some op) :
    kind = .plus ∨ kind = .dash := by
  cases kind <;> first | exact .inl rfl | exact .inr rfl | cases h

/-- The kinds that occur in the phrases of both dialects. -/
def sharedKinds : List TokenKind :=
  [.lparen, .rparen, .comma, .arrow, .kwLet, .assign, .ident, .int, .plus, .dash, .star, .slash,
    .power]

/-- The kinds that occur in the phrases of a dialect. -/
def Dialect.kinds (d : Dialect) : List TokenKind := d.opening ++ sharedKinds

/-- What joined pieces consist of. -/
theorem Joined.forall_mem {P : Token → Prop} {pieces : List (List Token)} {ts : List Token}
    (h : Joined pieces ts) (hcomma : ∀ t : Token, t.kind = .comma → P t)
    (hpieces : ∀ piece ∈ pieces, ∀ t ∈ piece, P t) : ∀ t ∈ ts, P t := by
  induction h with
  | nil => exact fun t ht => absurd ht List.not_mem_nil
  | single piece => exact hpieces piece List.mem_cons_self
  | cons piece hc _ ih =>
    intro t ht
    rcases List.mem_append.mp ht with ht | ht
    · exact hpieces piece List.mem_cons_self t ht
    · rcases List.mem_cons.mp ht with rfl | ht
      · exact hcomma t hc
      · exact ih (fun p hp => hpieces p (List.mem_cons_of_mem piece hp)) t ht

/-- Joined pieces begin with the first one. -/
theorem Joined.exists_append {piece ts : List Token} {pieces : List (List Token)}
    (h : Joined (piece :: pieces) ts) : ∃ us, ts = piece ++ us := by
  cases h with
  | single => exact ⟨[], (List.append_nil piece).symm⟩
  | cons _ _ _ => exact ⟨_, rfl⟩

/-- In the marked dialect a function literal opens with two tokens. -/
theorem Dialect.opening_marked {opening : List Token}
    (h : opening.map Token.kind = Dialect.marked.opening) :
    ∃ mark l, opening = [mark, l] ∧ mark.kind = .func ∧ l.kind = .lparen := by
  obtain ⟨mark, l, rfl⟩ : ∃ mark l, opening = [mark, l] :=
    List.length_eq_two.mp (by rw [← List.length_map Token.kind, h]; rfl)
  injection h with hmark h
  injection h with hl
  exact ⟨mark, l, rfl, hmark, hl⟩

/-- In the plain dialect a function literal opens with a parenthesis, as other phrases do. -/
theorem Dialect.opening_plain {opening : List Token}
    (h : opening.map Token.kind = Dialect.plain.opening) :
    ∃ l, opening = [l] ∧ l.kind = .lparen := by
  obtain ⟨l, rfl⟩ : ∃ l, opening = [l] :=
    List.length_eq_one_iff.mp (by rw [← List.length_map Token.kind, h]; rfl)
  injection h with hl
  exact ⟨l, rfl, hl⟩

theorem Dialect.mem_kinds_of_opening {d : Dialect} {opening : List Token}
    (h : opening.map Token.kind = d.opening) : ∀ t ∈ opening, t.kind ∈ d.kinds := by
  intro t ht
  have hmem : t.kind ∈ opening.map Token.kind := List.mem_map_of_mem ht
  rw [h] at hmem
  exact List.mem_append_left _ hmem

theorem Dialect.mem_kinds {d : Dialect} {kind : TokenKind} (h : kind ∈ sharedKinds) :
    kind ∈ d.kinds :=
  List.mem_append_right _ h

theorem IsName.kind_mem {d : Dialect} {ts : List Token} {name : String} (h : IsName ts name) :
    ∀ t ∈ ts, t.kind ∈ d.kinds := by
  obtain ⟨t, rfl, hkind, -⟩ := h
  refine List.forall_mem_singleton.mpr ?_
  rw [hkind]
  exact Dialect.mem_kinds (by decide)

/-- Only kinds of the dialect occur in a phrase. -/
theorem Derives.kind_mem {d : Dialect} {layer : Layer} {ts : List Token} {e : Expr}
    (h : Derives d layer ts e) : ∀ t ∈ ts, t.kind ∈ d.kinds := by
  have hcomma : ∀ t : Token, t.kind = .comma → t.kind ∈ d.kinds := by
    intro t ht
    rw [ht]
    exact Dialect.mem_kinds (by decide)
  induction h with
  | @func opening list body params close arrow e hopen hparams hlist hclose harrow _ ih =>
    have hlist := hlist.forall_mem hcomma
      (List.forall_mem_map.mpr fun p hp => (hparams p hp).kind_mem)
    have hopen := Dialect.mem_kinds_of_opening hopen
    simp only [List.forall_mem_append, List.forall_mem_cons, hclose, harrow]
    exact ⟨⟨hopen, hlist⟩, Dialect.mem_kinds (by decide),
      Dialect.mem_kinds (by decide), ih⟩
  | declare hkw hname hassign _ ih =>
    simp only [List.forall_mem_append, List.forall_mem_cons, hkw, hassign]
    exact ⟨Dialect.mem_kinds (by decide), hname.kind_mem, Dialect.mem_kinds (by decide), ih⟩
  | sum _ hop _ ihleft ihright =>
    simp only [List.forall_mem_append, List.forall_mem_cons]
    refine ⟨ihleft, ?_, ihright⟩
    rcases sumOp?_eq_some hop with hk | hk <;> rw [hk] <;> exact Dialect.mem_kinds (by decide)
  | product _ hop _ ihleft ihright =>
    simp only [List.forall_mem_append, List.forall_mem_cons]
    refine ⟨ihleft, ?_, ihright⟩
    rcases productOp?_eq_some hop with hk | hk <;> rw [hk] <;>
      exact Dialect.mem_kinds (by decide)
  | sign hop _ ih =>
    refine List.forall_mem_cons.mpr ⟨?_, ih⟩
    rcases sign?_eq_some hop with hk | hk <;> rw [hk] <;> exact Dialect.mem_kinds (by decide)
  | power _ hop _ ihbase ihexponent =>
    simp only [List.forall_mem_append, List.forall_mem_cons, hop]
    exact ⟨ihbase, Dialect.mem_kinds (by decide), ihexponent⟩
  | @call ts list opening close callee args _ hopen _ hlist hclose ihcallee ihargs =>
    have hlist := hlist.forall_mem hcomma (List.forall_mem_map.mpr ihargs)
    simp only [List.forall_mem_append, List.forall_mem_cons, hopen, hclose]
    exact ⟨ihcallee, Dialect.mem_kinds (by decide), hlist,
      Dialect.mem_kinds (by decide), List.forall_mem_nil _⟩
  | var hname => exact hname.kind_mem
  | int hvalue =>
    obtain ⟨t, rfl, hkind, -⟩ := hvalue
    refine List.forall_mem_singleton.mpr ?_
    rw [hkind]
    exact Dialect.mem_kinds (by decide)
  | paren hopen _ hclose ih =>
    simp only [List.forall_mem_append, List.forall_mem_cons, hopen, hclose]
    exact ⟨Dialect.mem_kinds (by decide), ih, Dialect.mem_kinds (by decide),
      List.forall_mem_nil _⟩
  | ofSum _ ih | ofProduct _ ih | ofSigned _ ih | ofPower _ ih | ofApplication _ ih
  | ofPrimary _ ih => exact ih

/-- Only kinds of the dialect and line breaks occur in a program. -/
theorem Program.kind_mem {d : Dialect} {ts : List Token} {es : List Expr} (h : Program d ts es) :
    ∀ t ∈ ts, t.kind ∈ .newline :: d.kinds := by
  have hbreaks : ∀ {breaks}, LineBreaks breaks → ∀ t ∈ breaks, t.kind ∈ .newline :: d.kinds := by
    intro breaks hbreaks t ht
    rw [hbreaks t ht]
    exact List.mem_cons_self
  induction h with
  | last hts hnewlines =>
    refine List.forall_mem_append.mpr ⟨fun t ht => ?_, hbreaks hnewlines⟩
    exact List.mem_cons_of_mem _ (hts.kind_mem t ht)
  | cons hts _ hnewlines _ ih =>
    refine List.forall_mem_append.mpr
      ⟨fun t ht => ?_, List.forall_mem_append.mpr ⟨hbreaks hnewlines, ih⟩⟩
    exact List.mem_cons_of_mem _ (hts.kind_mem t ht)

/-- The end of the input is no part of a program. -/
theorem Program.kind_ne_eof {d : Dialect} {ts : List Token} {es : List Expr} (h : Program d ts es) :
    ∀ t ∈ ts, t.kind ≠ .eof := by
  intro t ht heof
  have hmem := h.kind_mem t ht
  rw [heof] at hmem
  cases d <;> exact absurd hmem (by decide)

/-- The kinds with which a phrase of a layer begins. -/
def Layer.first (d : Dialect) : Layer → List TokenKind
  | statement => d.opening.take 1 ++ [.kwLet, .plus, .dash, .ident, .int, .lparen]
  | sum | product | signed => [.plus, .dash, .ident, .int, .lparen]
  | power | application | primary => [.ident, .int, .lparen]

/-- A phrase has a first token, and its kind is one of the layer. -/
theorem Derives.exists_first {d : Dialect} {layer : Layer} {ts : List Token} {e : Expr}
    (h : Derives d layer ts e) : ∃ t us, ts = t :: us ∧ t.kind ∈ layer.first d := by
  induction h with
  | @func opening list body params close arrow e hopen _ _ _ _ _ _ =>
    cases opening with
    | nil => cases d <;> cases hopen
    | cons t us =>
      refine ⟨t, us ++ list ++ close :: arrow :: body, rfl, List.mem_append_left _ ?_⟩
      rw [← hopen, List.map_cons, List.take_succ_cons]
      exact List.mem_cons_self
  | @declare kw assign ts value name e hkw _ _ _ _ =>
    refine ⟨kw, ts ++ assign :: value, rfl, List.mem_append_right _ ?_⟩
    rw [hkw]
    decide
  | ofSum _ ih =>
    obtain ⟨t, us, rfl, ht⟩ := ih
    exact ⟨t, us, rfl, List.mem_append_right _ (List.mem_cons_of_mem _ ht)⟩
  | @sum _ vs u _ _ _ _ _ _ ih _ | @product _ vs u _ _ _ _ _ _ ih _
  | @power _ vs u _ _ _ _ _ ih _ =>
    obtain ⟨t, us, rfl, ht⟩ := ih
    exact ⟨t, us ++ u :: vs, rfl, ht⟩
  | @sign t ts op e hop _ _ =>
    refine ⟨t, ts, rfl, ?_⟩
    rcases sign?_eq_some hop with hk | hk <;> rw [hk, Layer.first] <;> decide
  | ofPower _ ih =>
    obtain ⟨t, us, rfl, ht⟩ := ih
    exact ⟨t, us, rfl, List.mem_cons_of_mem _ (List.mem_cons_of_mem _ ht)⟩
  | @call _ list opening close _ _ _ _ _ _ _ ih _ =>
    obtain ⟨t, us, rfl, ht⟩ := ih
    exact ⟨t, us ++ opening :: (list ++ [close]), rfl, ht⟩
  | var hname =>
    obtain ⟨t, rfl, hkind, -⟩ := hname
    exact ⟨t, [], rfl, by rw [hkind, Layer.first]; decide⟩
  | int hvalue =>
    obtain ⟨t, rfl, hkind, -⟩ := hvalue
    exact ⟨t, [], rfl, by rw [hkind, Layer.first]; decide⟩
  | @paren opening close ts e hopen _ _ _ =>
    exact ⟨opening, ts ++ [close], rfl, by rw [hopen, Layer.first]; decide⟩
  | ofProduct _ ih | ofSigned _ ih | ofApplication _ ih | ofPrimary _ ih => exact ih

end Grammar

end ArrowCalc
