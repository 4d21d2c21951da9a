import ArrowCalc.Decimal.Basic
import ArrowCalc.Expr
import ArrowCalc.Proofs.JavaScript.Tokens

/-!
# Reading JavaScript

The expressions of JavaScript that are of interest here, from the loosest to the tightest:

```
program     = {expression ";"}
expression  = "(" [name {"," name}] ")" "=>" "{" "return" expression ";" "}"
            | "let" name "=" expression
            | sum
sum         = product {("+" | "-") product}                grouped to the left
product     = signed {("*" | "/") signed}                  grouped to the left
signed      = "-" signed | application
application = primary {"(" [expression {"," expression}] ")"}
primary     = name | integer | "(" expression ")"
            | "Math.pow" "(" expression "," expression ")"
```

A declaration may stand wherever an expression may. The words of JavaScript that have a meaning of
their own are `let` and `return` here, and all others are names.

## Scope

This is a grammar for the texts that are written, and not one for JavaScript. It is larger than what
is written in a few places, where JavaScript is: a call may have several argument lists, and an
operand of `Math.pow` may be any expression. It has the precedences and the grouping of JavaScript,
and this is what it is there for. A text that is written without parentheses could be grouped
differently by a reader that knows its operators, and here it is shown that it is not.

## Phrases and their trees

`Reads p ts e` says that exactly the tokens `ts` are a phrase of the kind `p`, and that `e` is its
tree. The tree of a call of `Math.pow` is a power. A repetition is a phrase too: `rest` and `calls`
carry the tree of what stands in front of them, to which they add one item after the other.

## One reading

The grammar has no lookahead, and yet a text can be read in one way only. Two phrases of one kind
that begin the same list of tokens are equal, if neither of them is followed by a token that could
go on with it (`Reads.determined`). The parameters of a function look like an expression in
parentheses until the arrow is seen, and no expression goes on with an arrow.

The proof is an induction on one of the two phrases, with a lemma for each rule (`Determined`). The
other phrase is taken apart in each lemma. Either it was built by the same rule, and the parts are
equal one after the other, or the two rules are told apart by the first token. What may follow a
part is known from the rule, and `Phrase.follow` collects it for each kind of phrase.

## Main definitions

* `JavaScript.Reads`, `JavaScript.Statements` — phrases and programs with their trees
* `JavaScript.IsReading` — the trees of a text
* `JavaScript.Determined` — a phrase is the only one of its kind where it stands

## Main results

* `JavaScript.Reads.determined` — phrases that begin the same list of tokens are equal
* `JavaScript.IsReading.unique` — a text has one reading at most
* `JavaScript.Reads.forall_mem` — the tokens of a phrase are names, integers and symbols
-/

namespace ArrowCalc

namespace JavaScript

/-! ### The grammar

The rules are those above, one constructor each. The two levels of operators share their rules. -/

/-- The words that name something. -/
def IsName (w : String) : Prop := IsWord w.toList ∧ w ≠ "let" ∧ w ≠ "return"

/-- The numerals of integers. There is no leading zero. -/
def IsInteger (w : String) : Prop :=
  w.toList ≠ [] ∧ w.toList.all Char.isDigit ∧ (w.toList.head? = some '0' → w.toList = ['0'])

instance (w : String) : Decidable (IsName w) := inferInstanceAs (Decidable (_ ∧ _))

instance (w : String) : Decidable (IsInteger w) := inferInstanceAs (Decidable (_ ∧ _))

/-- The levels of operators that are grouped to the left. -/
inductive Level where
  | sum | product

/-- The operators of a level. -/
def Level.operators : Level → List (String × BinaryOp)
  | sum => [("+", .add), ("-", .sub)]
  | product => [("*", .mul), ("/", .div)]

/-- What may stand behind a chain of operators of a level. -/
def Level.follow : Level → List String
  | sum => [";", ",", ")"]
  | product => ["+", "-", ";", ",", ")"]

/-- The kinds of phrases. -/
inductive Phrase where
  | expression
  | chain (level : Level)
  | rest (level : Level) (left : Expr)
  | signed
  | application
  | calls (callee : Expr)
  | primary

/-- The operands of a level. -/
def Level.operand : Level → Phrase
  | sum => .chain .product
  | product => .signed

/-- The pieces with a comma between each two. -/
def commas (pieces : List (List String)) : List String := [","].intercalate pieces

/-- The tokens `ts` are a phrase with the tree `e`. -/
inductive Reads : Phrase → List String → Expr → Prop where
  | arrow {params : List String} {ts : List String} {e : Expr} (hparams : ∀ x ∈ params, IsName x)
      (h : Reads .expression ts e) :
      Reads .expression
        ("(" :: (commas (params.map fun x => [x]) ++
          ")" :: "=>" :: "\x7b" :: "return" :: (ts ++ [";", "\x7d"])))
        (.func params e)
  | declare {x : String} {ts : List String} {e : Expr} (hx : IsName x)
      (h : Reads .expression ts e) : Reads .expression ("let" :: x :: "=" :: ts) (.declare x e)
  | ofSum {ts : List String} {e : Expr} (h : Reads (.chain .sum) ts e) : Reads .expression ts e
  | chain {level : Level} {ts us : List String} {a e : Expr} (hfirst : Reads level.operand ts a)
      (hrest : Reads (.rest level a) us e) : Reads (.chain level) (ts ++ us) e
  | done (level : Level) (a : Expr) : Reads (.rest level a) [] a
  | more {level : Level} {t : String} {op : BinaryOp} {ts us : List String} {a b e : Expr}
      (hop : (t, op) ∈ level.operators) (h : Reads level.operand ts b)
      (hrest : Reads (.rest level (.binary op a b)) us e) :
      Reads (.rest level a) (t :: (ts ++ us)) e
  | minus {ts : List String} {e : Expr} (h : Reads .signed ts e) :
      Reads .signed ("-" :: ts) (.unary .minus e)
  | ofApplication {ts : List String} {e : Expr} (h : Reads .application ts e) : Reads .signed ts e
  | application {ts us : List String} {a e : Expr} (hcallee : Reads .primary ts a)
      (hcalls : Reads (.calls a) us e) : Reads .application (ts ++ us) e
  | noCall (a : Expr) : Reads (.calls a) [] a
  | call {args : List (List String × Expr)} {us : List String} {a e : Expr}
      (hargs : ∀ arg ∈ args, Reads .expression arg.1 arg.2)
      (hcalls : Reads (.calls (.call a (args.map Prod.snd))) us e) :
      Reads (.calls a) ("(" :: (commas (args.map Prod.fst) ++ ")" :: us)) e
  | var {x : String} (hx : IsName x) : Reads .primary [x] (.var x)
  | int {w : String} (hw : IsInteger w) : Reads .primary [w] (.int (Decimal.ofDigits 10 w.toList))
  | paren {ts : List String} {e : Expr} (h : Reads .expression ts e) :
      Reads .primary ("(" :: (ts ++ [")"])) (.paren e)
  | pow {ts us : List String} {a b : Expr} (ha : Reads .expression ts a)
      (hb : Reads .expression us b) :
      Reads .primary (mathPow :: "(" :: (ts ++ "," :: (us ++ [")"]))) (.binary .pow a b)

/-- The tokens `ts` are statements with the trees `es`. -/
inductive Statements : List String → List Expr → Prop where
  | nil : Statements [] []
  | cons {ts us : List String} {e : Expr} {es : List Expr} (h : Reads .expression ts e)
      (hrest : Statements us es) : Statements (ts ++ ";" :: us) (e :: es)

/-- The tree can be read from the text. -/
def IsReading (text : String) (t : Expr) : Prop :=
  ∃ ws es, Tokens text.toList ws ∧ Statements ws es ∧ t = .block es

/-! ### Building phrases -/

namespace Reads

variable {level : Level} {ts us : List String} {t : String} {op : BinaryOp} {a b e : Expr}

/-- One operand is a chain. -/
theorem single (level : Level) (h : Reads level.operand ts a) : Reads (.chain level) ts a := by
  have hchain := chain h (done level a)
  rwa [List.append_nil] at hchain

/-- The rules add operators at the front of a repetition. Adding one at its end takes an induction.
-/
theorem rest_snoc (h : Reads (.rest level a) ts e) (hop : (t, op) ∈ level.operators)
    (hb : Reads level.operand us b) : Reads (.rest level a) (ts ++ t :: us) (.binary op e b) := by
  generalize hp : Phrase.rest level a = p at h
  induction h generalizing a with
  | done =>
    cases hp
    rw [List.nil_append, ← List.append_nil us]
    exact more hop hb (done level _)
  | more hop' h' _ _ ih =>
    cases hp
    rw [List.cons_append, List.append_assoc]
    exact more hop' h' (ih rfl)
  | arrow | declare | ofSum | chain | minus | ofApplication | application | noCall | call | var
  | int | paren | pow => cases hp

/-- A chain and one more operand are a chain. -/
theorem snoc (h : Reads (.chain level) ts e) (hop : (t, op) ∈ level.operators)
    (hb : Reads level.operand us b) : Reads (.chain level) (ts ++ t :: us) (.binary op e b) := by
  cases h with
  | chain hfirst hrest =>
    rw [List.append_assoc]
    exact chain hfirst (hrest.rest_snoc hop hb)

/-- A primary without calls is an application. -/
theorem ofPrimary (h : Reads .primary ts a) : Reads .application ts a := by
  have happlication := application h (noCall a)
  rwa [List.append_nil] at happlication

end Reads

/-! ### What stands at the ends of a phrase

The first token of a phrase, and the tokens that may follow it. Both are lists of symbols, and what
is needed about them is decided. -/

namespace Phrase

/-- A phrase that goes on with another one. -/
def IsRest : Phrase → Prop
  | rest _ _ | calls _ => True
  | _ => False

/-- The symbols with which a phrase begins. -/
def openings : Phrase → List String
  | expression => ["let", "-", "(", mathPow]
  | chain _ | signed => ["-", "(", mathPow]
  | application | primary => ["(", mathPow]
  | rest _ _ | calls _ => []

/-- A phrase begins with a symbol, a name or an integer. -/
def Begins (p : Phrase) (t : String) : Prop := t ∈ p.openings ∨ IsName t ∨ IsInteger t

instance (p : Phrase) (t : String) : Decidable (p.Begins t) := inferInstanceAs (Decidable (_ ∨ _))

/-- The symbols that may stand behind a phrase. None of them can go on with it. -/
def follow : Phrase → List String
  | expression => [";", ",", ")"]
  | chain level | rest level _ => level.follow
  | signed | application | calls _ => ["*", "/", "+", "-", ";", ",", ")"]
  | primary => ["(", "*", "/", "+", "-", ";", ",", ")"]

/-- The tokens can stand behind a phrase. -/
def Follows (p : Phrase) (ts : List String) : Prop := ∃ t us, ts = t :: us ∧ t ∈ p.follow

/-- What follows a phrase follows its last part too. -/
theorem Follows.mono {p q : Phrase} {ts : List String} (h : p.Follows ts)
    (hpq : ∀ t ∈ p.follow, t ∈ q.follow) : q.Follows ts := by
  obtain ⟨t, us, rfl, ht⟩ := h
  exact ⟨t, us, rfl, hpq t ht⟩

theorem follows_cons {p : Phrase} {t : String} (h : t ∈ p.follow) (us : List String) :
    p.Follows (t :: us) :=
  ⟨t, us, rfl, h⟩

end Phrase

open Phrase

namespace Level

variable {level : Level} {t : String}

theorem mem_follow_operand {op : BinaryOp} (h : (t, op) ∈ level.operators) :
    t ∈ level.operand.follow := by
  have htable : ∀ entry ∈ level.operators, entry.1 ∈ level.operand.follow := by
    cases level <;> decide
  exact htable (t, op) h

theorem mem_follow_operand_of_follow : ∀ t ∈ level.follow, t ∈ level.operand.follow := by
  cases level <;> decide

/-- What follows a chain is not one of its operators. -/
theorem not_mem_operators {op : BinaryOp} (h : t ∈ level.follow) :
    (t, op) ∉ level.operators := by
  intro hop
  have htable : ∀ entry ∈ level.operators, entry.1 ∉ level.follow := by
    cases level <;> decide
  exact htable (t, op) hop h

theorem operator_unique {op op' : BinaryOp} (h : (t, op) ∈ level.operators)
    (h' : (t, op') ∈ level.operators) : op = op' := by
  have htable : ∀ x ∈ level.operators, ∀ y ∈ level.operators, x.1 = y.1 → x.2 = y.2 := by
    cases level <;> decide
  exact htable _ h _ h' rfl

end Level

/-- The rest of a chain begins with an operator, and what follows the chain does not go on with its
last operand. -/
theorem Reads.follows_rest {level : Level} {a e : Expr} {us r : List String}
    (h : Reads (.rest level a) us e) (hr : Phrase.Follows (.chain level) r) :
    level.operand.Follows (us ++ r) := by
  cases h with
  | done => exact hr.mono Level.mem_follow_operand_of_follow
  | more hop _ _ => exact follows_cons (Level.mem_follow_operand hop) _

/-- The calls of an application begin with a parenthesis, and what follows the application does not
go on with its callee. -/
theorem Reads.follows_calls {a e : Expr} {us r : List String} (h : Reads (.calls a) us e)
    (hr : Phrase.Follows .application r) : Phrase.Follows .primary (us ++ r) := by
  cases h with
  | noCall => exact hr.mono (by decide)
  | call _ _ => exact follows_cons (by decide) _

theorem IsName.not_isInteger {w : String} (h : IsName w) : ¬ IsInteger w := by
  rintro ⟨hne, hdigits, -⟩
  have hhead := h.1.1
  cases hw : w.toList with
  | nil => exact hne hw
  | cons c cs =>
    rw [hw, List.all_cons, Bool.and_eq_true] at hdigits
    rw [hw] at hhead
    exact (of_decide_eq_true hhead).2 hdigits.1

/-- A phrase begins as it should. -/
theorem Reads.begins {p : Phrase} {ts : List String} {e : Expr} (h : Reads p ts e)
    (hp : ¬ p.IsRest) : ∃ t us, ts = t :: us ∧ p.Begins t := by
  induction h with
  | arrow => exact ⟨_, _, rfl, .inl (by decide)⟩
  | declare => exact ⟨_, _, rfl, .inl (by decide)⟩
  | ofSum _ ih =>
    obtain ⟨t, us, rfl, ht⟩ := ih id
    refine ⟨t, us, rfl, ht.imp_left ?_⟩
    exact List.mem_cons_of_mem _
  | @chain level _ vs _ _ _ _ ih _ =>
    obtain ⟨t, us, rfl, ht⟩ := ih (by cases level <;> exact id)
    exact ⟨t, us ++ vs, rfl, ht.imp_left (by cases level <;> exact id)⟩
  | done | more | noCall | call => exact absurd trivial hp
  | minus => exact ⟨_, _, rfl, .inl (by decide)⟩
  | ofApplication _ ih =>
    obtain ⟨t, us, rfl, ht⟩ := ih id
    exact ⟨t, us, rfl, ht.imp_left (List.mem_cons_of_mem _)⟩
  | @application _ vs _ _ _ _ ih _ =>
    obtain ⟨t, us, rfl, ht⟩ := ih id
    exact ⟨t, us ++ vs, rfl, ht⟩
  | var hx => exact ⟨_, [], rfl, .inr (.inl hx)⟩
  | int hw => exact ⟨_, [], rfl, .inr (.inr hw)⟩
  | paren => exact ⟨_, _, rfl, .inl (by decide)⟩
  | pow => exact ⟨_, _, rfl, .inl (by decide)⟩

/-- A phrase does not begin with a token that no phrase of its kind begins with. -/
theorem Reads.ne_cons {p : Phrase} {ts : List String} {e : Expr} (h : Reads p ts e)
    (hp : ¬ p.IsRest) {t : String} (ht : ¬ p.Begins t) (r u : List String) : ts ++ r ≠ t :: u := by
  obtain ⟨t', us, rfl, ht'⟩ := h.begins hp
  intro heq
  rw [(List.cons.inj heq).1] at ht'
  exact ht ht'

/-! ### Primaries

A primary is known by its first token. -/

namespace Reads

variable {ts r u : List String} {x : String} {e : Expr}

theorem of_name (h : Reads .primary ts e) (hx : IsName x) (heq : ts ++ r = x :: u) :
    ts = [x] ∧ e = .var x := by
  cases h with
  | var =>
    obtain ⟨rfl, -⟩ := List.cons.inj heq
    exact ⟨rfl, rfl⟩
  | int hw => exact absurd ((List.cons.inj heq).1 ▸ hw) hx.not_isInteger
  | paren | pow => exact absurd ((List.cons.inj heq).1 ▸ hx) (by decide)

theorem of_integer (h : Reads .primary ts e) (hx : IsInteger x) (heq : ts ++ r = x :: u) :
    ts = [x] ∧ e = .int (Decimal.ofDigits 10 x.toList) := by
  cases h with
  | var hx' => exact absurd hx ((List.cons.inj heq).1 ▸ hx'.not_isInteger)
  | int =>
    obtain ⟨rfl, -⟩ := List.cons.inj heq
    exact ⟨rfl, rfl⟩
  | paren | pow => exact absurd ((List.cons.inj heq).1 ▸ hx) (by decide)

/-- Behind an opening parenthesis a primary is an expression in parentheses. -/
theorem of_lparen (h : Reads .primary ts e) (heq : ts ++ r = "(" :: u) :
    ∃ us a, ts = "(" :: (us ++ [")"]) ∧ e = .paren a ∧ Reads .expression us a := by
  cases h with
  | var hx => exact absurd ((List.cons.inj heq).1 ▸ hx) (by decide)
  | int hw => exact absurd ((List.cons.inj heq).1 ▸ hw) (by decide)
  | paren h => exact ⟨_, _, rfl, rfl, h⟩
  | pow => exact absurd (List.cons.inj heq).1 (by decide)

theorem of_mathPow (h : Reads .primary ts e) (heq : ts ++ r = mathPow :: u) :
    ∃ us vs a b, ts = mathPow :: "(" :: (us ++ "," :: (vs ++ [")"])) ∧ e = .binary .pow a b ∧
      Reads .expression us a ∧ Reads .expression vs b := by
  cases h with
  | var hx => exact absurd ((List.cons.inj heq).1 ▸ hx) (by decide)
  | int hw => exact absurd ((List.cons.inj heq).1 ▸ hw) (by decide)
  | paren => exact absurd (List.cons.inj heq).1 (by decide)
  | pow ha hb => exact ⟨_, _, _, _, rfl, rfl, ha, hb⟩

end Reads

/-! ### Parameters and parentheses

The one place where the first token does not tell the rules apart: a function and a sum may both
begin with a parenthesis. If a sum begins like a function, then its first operand is an expression
in parentheses that ends where the parameters do, and behind it stands the arrow, which follows no
operand. -/

/-- A phrase that is seen to be over behind a name is the name. -/
theorem Reads.eq_singleton {p : Phrase} {ts : List String} {e : Expr} (h : Reads p ts e)
    (hp : ¬ p.IsRest) {x y : String} {r rest : List String} (hx : IsName x) (hy : y ∈ [")", ","])
    (heq : ts ++ r = x :: y :: rest) : ts = [x] := by
  have hne : ∀ t, ¬ IsName t → t ≠ x := fun t ht h => ht (h ▸ hx)
  induction h generalizing r with
  | arrow | declare | minus | paren | pow =>
    injection heq with hx'
    exact absurd hx' (hne _ (by decide))
  | ofSum _ ih => exact ih id heq
  | @chain level ts us _ _ _ hrest ih _ =>
    rw [List.append_assoc] at heq
    obtain rfl := ih (by cases level <;> exact id) heq
    cases hrest with
    | done => rfl
    | more hop _ _ =>
      injection heq with _ heq
      injection heq with hy'
      subst hy'
      have hclose : ∀ t ∈ [")", ","], t ∈ level.follow := by cases level <;> decide
      exact absurd hop (Level.not_mem_operators (hclose _ hy))
  | done | more | noCall | call => exact absurd trivial hp
  | ofApplication _ ih => exact ih id heq
  | application _ hcalls ih _ =>
    rw [List.append_assoc] at heq
    obtain rfl := ih id heq
    cases hcalls with
    | noCall => rfl
    | call _ _ =>
      injection heq with _ heq
      injection heq with hy'
      subst hy'
      exact absurd hy (by decide)
  | var =>
    injection heq with hx'
    rw [hx']
  | int hw =>
    injection heq with hx'
    exact absurd (hx' ▸ hw) hx.not_isInteger

/-- A phrase that is no expression of its own. -/
def Phrase.IsOperand : Phrase → Prop
  | chain _ | signed | application | primary => True
  | _ => False

theorem Level.isOperand_operand (level : Level) : level.operand.IsOperand := by
  cases level <;> trivial

/-- An operand that begins with a parenthesis begins with an expression in parentheses, and goes on
with what can follow that. -/
theorem Reads.of_open {p : Phrase} {ts : List String} {e : Expr} (h : Reads p ts e)
    (hp : p.IsOperand) {r u : List String} (hr : p.Follows r) (heq : ts ++ r = "(" :: u) :
    ∃ us e v, u = us ++ ")" :: v ∧ Reads .expression us e ∧ primary.Follows v := by
  induction h generalizing r with
  | arrow | declare | ofSum | done | more | noCall | call => exact hp.elim
  | @chain level ts us _ _ _ hrest ih _ =>
    rw [List.append_assoc] at heq
    exact ih level.isOperand_operand (hrest.follows_rest hr) heq
  | minus | pow =>
    injection heq with ht
    exact absurd ht (by decide)
  | ofApplication _ ih => exact ih trivial hr heq
  | application _ hcalls ih _ =>
    rw [List.append_assoc] at heq
    exact ih trivial (hcalls.follows_calls hr) heq
  | var hx =>
    injection heq with ht
    exact absurd (ht ▸ hx) (by decide)
  | int hw =>
    injection heq with ht
    exact absurd (ht ▸ hw) (by decide)
  | @paren ts e h _ =>
    rw [List.cons_append, List.append_assoc, List.singleton_append] at heq
    obtain ⟨-, rfl⟩ := List.cons.inj heq
    exact ⟨ts, e, r, rfl, h, hr⟩

/-- The pieces behind the first one, each with a comma in front of it. -/
def commasAfter : List (List String) → List String
  | [] => []
  | piece :: pieces => "," :: commas (piece :: pieces)

theorem commas_cons (piece : List String) (pieces : List (List String)) :
    commas (piece :: pieces) = piece ++ commasAfter pieces := by
  cases pieces with
  | nil => rw [commas, List.intercalate_singleton, commasAfter, List.append_nil]
  | cons next rest =>
    rw [commas, List.intercalate_cons_cons, List.append_assoc, List.singleton_append]
    rfl

theorem follows_commasAfter (pieces : List (List String)) (u : List String) :
    expression.Follows (commasAfter pieces ++ ")" :: u) := by
  cases pieces <;> exact follows_cons (by decide) _

/-- No sum begins like a function. -/
theorem Reads.not_arrow {ts r u : List String} {e : Expr} {params : List String}
    (h : Reads (.chain .sum) ts e) (hr : expression.Follows r) (hparams : ∀ x ∈ params, IsName x) :
    ts ++ r ≠ "(" :: (commas (params.map fun x => [x]) ++ ")" :: "=>" :: u) := by
  intro heq
  obtain ⟨us, e', v, hus, hread, hv⟩ := h.of_open trivial hr heq
  cases params with
  | nil => exact hread.ne_cons id (by decide) _ _ hus.symm
  | cons x params =>
    have hx := hparams x List.mem_cons_self
    rw [List.map_cons, commas_cons] at hus
    cases params with
    | nil =>
      obtain rfl := hread.eq_singleton id hx (by decide) hus.symm
      obtain ⟨t, w, rfl, ht⟩ := hv
      injection hus with _ hus
      injection hus with _ hus
      injection hus with ht'
      subst ht'
      exact absurd ht (by decide)
    | cons y params =>
      obtain rfl := hread.eq_singleton id hx (by decide) hus.symm
      injection hus with _ hus
      injection hus with ht
      exact absurd ht (by decide)

/-! ### One reading

Lists of items are compared by an induction of their own, for parameters and for arguments. After
that there is one lemma for each rule. -/

/-- Lists of items with commas between them are equal, if they are followed by a parenthesis and
each item of one list is determined by what it stands in front of. -/
theorem commas_unique {α : Type} (Item : List String → α → Prop)
    {items items' : List (List String × α)}
    (hfirst : ∀ {ts a}, Item ts a → ∃ t us, ts = t :: us ∧ t ≠ ")")
    (hunique : ∀ item ∈ items, ∀ ⦃ts a r r'⦄, Item ts a → item.1 ++ r = ts ++ r' →
      expression.Follows r → expression.Follows r' → item.1 = ts ∧ item.2 = a)
    (hitems : ∀ item ∈ items, Item item.1 item.2) (hitems' : ∀ item ∈ items', Item item.1 item.2)
    {u u' : List String}
    (heq : commas (items.map Prod.fst) ++ ")" :: u = commas (items'.map Prod.fst) ++ ")" :: u') :
    items = items' ∧ u = u' := by
  induction items generalizing items' with
  | nil =>
    cases items' with
    | nil => exact ⟨rfl, (List.cons.inj heq).2⟩
    | cons item' items' =>
      obtain ⟨t, us, ht, hne⟩ := hfirst (hitems' item' List.mem_cons_self)
      rw [List.map_cons, commas_cons, ht] at heq
      exact absurd (List.cons.inj heq).1.symm hne
  | cons item items ih =>
    obtain ⟨hitem, hitems⟩ := List.forall_mem_cons.mp hitems
    obtain ⟨huniqueItem, hunique⟩ := List.forall_mem_cons.mp hunique
    rw [List.map_cons, commas_cons] at heq
    cases items' with
    | nil =>
      obtain ⟨t, us, ht, hne⟩ := hfirst hitem
      rw [ht] at heq
      exact absurd (List.cons.inj heq).1 hne
    | cons item' items' =>
      obtain ⟨hitem', hitems'⟩ := List.forall_mem_cons.mp hitems'
      rw [List.map_cons, commas_cons, List.append_assoc, List.append_assoc] at heq
      obtain ⟨hfst, hsnd⟩ := huniqueItem hitem' heq (follows_commasAfter _ u)
        (follows_commasAfter _ u')
      rw [hfst] at heq
      replace heq := List.append_cancel_left heq
      -- both lists go on with a comma, or neither does
      obtain ⟨rfl, rfl⟩ : items = items' ∧ u = u' := by
        cases items with
        | nil =>
          cases items' with
          | nil => exact ⟨rfl, (List.cons.inj heq).2⟩
          | cons => exact absurd (List.cons.inj heq).1 (by decide)
        | cons =>
          cases items' with
          | nil => exact absurd (List.cons.inj heq).1 (by decide)
          | cons => exact ih hunique hitems hitems' (List.cons.inj heq).2
      exact ⟨by rw [Prod.ext hfst hsnd], rfl⟩

/-- An expression does not begin with a closing parenthesis. -/
theorem Reads.begins_ne_rparen {ts : List String} {e : Expr} (h : Reads .expression ts e) :
    ∃ t us, ts = t :: us ∧ t ≠ ")" := by
  obtain ⟨t, us, rfl, ht⟩ := h.begins id
  refine ⟨t, us, rfl, ?_⟩
  rintro rfl
  exact absurd ht (by decide)

/-- The parameters of a function are found in one way. -/
theorem params_unique {params params' u u' : List String} (hparams : ∀ x ∈ params, IsName x)
    (hparams' : ∀ x ∈ params', IsName x)
    (heq : commas (params.map fun x => [x]) ++ ")" :: u =
      commas (params'.map fun x => [x]) ++ ")" :: u') : params = params' ∧ u = u' := by
  -- a parameter is an item that is one token long, so lists of items are unique here too
  let item : String → List String × String := fun x => ([x], x)
  have hfst : ∀ xs : List String, (xs.map item).map Prod.fst = xs.map fun x => [x] := fun xs => by
    rw [List.map_map]
    rfl
  have hsnd : ∀ xs : List String, (xs.map item).map Prod.snd = xs := fun xs => by
    rw [List.map_map]
    exact List.map_id xs
  rw [← hfst, ← hfst] at heq
  have hfirst : ∀ {ts : List String} {x : String}, ts = [x] ∧ IsName x →
      ∃ t us, ts = t :: us ∧ t ≠ ")" := by
    rintro ts x ⟨rfl, hx⟩
    refine ⟨x, [], rfl, ?_⟩
    rintro rfl
    exact absurd hx (by decide)
  have hnames : ∀ {xs : List String}, (∀ x ∈ xs, IsName x) →
      ∀ entry ∈ xs.map item, entry.1 = [entry.2] ∧ IsName entry.2 := fun h =>
    List.forall_mem_map.mpr fun x hx => ⟨rfl, h x hx⟩
  obtain ⟨hitems, hu⟩ := commas_unique (fun ts x => ts = [x] ∧ IsName x) hfirst
    (fun entry hentry ts x r r' hx h _ _ => by
      rw [(hnames hparams entry hentry).1, hx.1] at h ⊢
      obtain ⟨rfl, -⟩ := List.cons.inj h
      exact ⟨rfl, rfl⟩)
    (hnames hparams) (hnames hparams') heq
  exact ⟨by rw [← hsnd params, hitems, hsnd], hu⟩

/-- Every phrase of the kind that begins the same list of tokens is this one, if neither is followed
by what could go on with it. -/
def Determined (p : Phrase) (ts : List String) (e : Expr) : Prop :=
  ∀ ⦃ts' : List String⦄ ⦃e' : Expr⦄ ⦃r r' : List String⦄, Reads p ts' e' → ts ++ r = ts' ++ r' →
    p.Follows r → p.Follows r' → ts = ts' ∧ e = e'

namespace Determined

variable {level : Level} {t x : String} {op : BinaryOp} {params ts us : List String} {a b e : Expr}

/-- A function: the other phrase is one too, since no sum begins like it. -/
theorem arrow (hparams : ∀ x ∈ params, IsName x) (h : Determined .expression ts e) :
    Determined .expression
      ("(" :: (commas (params.map fun x => [x]) ++
        ")" :: "=>" :: "\x7b" :: "return" :: (ts ++ [";", "\x7d"])))
      (.func params e) := by
  intro ts' e' r r' h' heq hr hr'
  cases h' with
  | arrow hparams' h' =>
    simp only [List.cons_append, List.append_assoc, List.cons.injEq, true_and] at heq
    obtain ⟨rfl, hbody⟩ := params_unique hparams hparams' heq
    simp only [List.cons.injEq, true_and] at hbody
    obtain ⟨rfl, rfl⟩ := h h' hbody (follows_cons (by decide) _) (follows_cons (by decide) _)
    exact ⟨rfl, rfl⟩
  | declare => exact absurd (List.cons.inj heq).1 (by decide)
  | ofSum h' =>
    simp only [List.cons_append, List.append_assoc] at heq
    exact absurd heq.symm (h'.not_arrow hr' hparams)

theorem declare (h : Determined .expression ts e) :
    Determined .expression ("let" :: x :: "=" :: ts) (.declare x e) := by
  intro ts' e' r r' h' heq hr hr'
  cases h' with
  | arrow => exact absurd (List.cons.inj heq).1 (by decide)
  | declare _ h' =>
    simp only [List.cons_append, List.cons.injEq, true_and] at heq
    obtain ⟨rfl, heq⟩ := heq
    obtain ⟨rfl, rfl⟩ := h h' heq hr hr'
    exact ⟨rfl, rfl⟩
  | ofSum h' => exact absurd heq.symm (h'.ne_cons id (by decide) _ _)

theorem ofSum (hread : Reads (.chain .sum) ts e) (h : Determined (.chain .sum) ts e) :
    Determined .expression ts e := by
  intro ts' e' r r' h' heq hr hr'
  cases h' with
  | arrow hparams' _ =>
    simp only [List.cons_append, List.append_assoc] at heq
    exact absurd heq (hread.not_arrow hr hparams')
  | declare => exact absurd heq (hread.ne_cons id (by decide) _ _)
  | ofSum h' => exact h h' heq hr hr'

/-- A chain: the first operands are equal, since behind each stands an operator of the level or what
may follow the chain. -/
theorem chain (hread : Reads (.rest level a) us e) (hfirst : Determined level.operand ts a)
    (hrest : Determined (.rest level a) us e) : Determined (.chain level) (ts ++ us) e := by
  intro ts' e' r r' h' heq hr hr'
  cases h' with
  | chain hfirst' hrest' =>
    rw [List.append_assoc, List.append_assoc] at heq
    obtain ⟨rfl, rfl⟩ := hfirst hfirst' heq (hread.follows_rest hr) (hrest'.follows_rest hr')
    obtain ⟨rfl, rfl⟩ := hrest hrest' (List.append_cancel_left heq) hr hr'
    exact ⟨rfl, rfl⟩

/-- A chain that ends: the other one ends too, since what follows a chain is none of its operators.
-/
theorem done : Determined (.rest level a) [] a := by
  intro ts' e' r r' h' heq hr hr'
  cases h' with
  | done => exact ⟨rfl, rfl⟩
  | more hop' _ _ =>
    obtain ⟨t, us, rfl, ht⟩ := hr
    obtain ⟨rfl, -⟩ := List.cons.inj heq
    exact absurd hop' (Level.not_mem_operators ht)

theorem more (hop : (t, op) ∈ level.operators) (hread : Reads (.rest level (.binary op a b)) us e)
    (h : Determined level.operand ts b) (hrest : Determined (.rest level (.binary op a b)) us e) :
    Determined (.rest level a) (t :: (ts ++ us)) e := by
  intro ts' e' r r' h' heq hr hr'
  cases h' with
  | done =>
    obtain ⟨t', us', rfl, ht'⟩ := hr'
    obtain ⟨rfl, -⟩ := List.cons.inj heq
    exact absurd hop (Level.not_mem_operators ht')
  | more hop' h' hrest' =>
    simp only [List.cons_append, List.append_assoc, List.cons.injEq] at heq
    obtain ⟨rfl, heq⟩ := heq
    obtain rfl := Level.operator_unique hop hop'
    obtain ⟨rfl, rfl⟩ := h h' heq (hread.follows_rest hr) (hrest'.follows_rest hr')
    obtain ⟨rfl, rfl⟩ := hrest hrest' (List.append_cancel_left heq) hr hr'
    exact ⟨rfl, rfl⟩

theorem minus (h : Determined .signed ts e) : Determined .signed ("-" :: ts) (.unary .minus e) := by
  intro ts' e' r r' h' heq hr hr'
  cases h' with
  | minus h' =>
    obtain ⟨rfl, rfl⟩ := h h' (List.cons.inj heq).2 hr hr'
    exact ⟨rfl, rfl⟩
  | ofApplication h' => exact absurd heq.symm (h'.ne_cons id (by decide) _ _)

theorem ofApplication (hread : Reads .application ts e) (h : Determined .application ts e) :
    Determined .signed ts e := by
  intro ts' e' r r' h' heq hr hr'
  cases h' with
  | minus => exact absurd heq (hread.ne_cons id (by decide) _ _)
  | ofApplication h' => exact h h' heq hr hr'

theorem application (hread : Reads (.calls a) us e) (hcallee : Determined .primary ts a)
    (hcalls : Determined (.calls a) us e) : Determined .application (ts ++ us) e := by
  intro ts' e' r r' h' heq hr hr'
  cases h' with
  | application hcallee' hcalls' =>
    rw [List.append_assoc, List.append_assoc] at heq
    obtain ⟨rfl, rfl⟩ := hcallee hcallee' heq (hread.follows_calls hr) (hcalls'.follows_calls hr')
    obtain ⟨rfl, rfl⟩ := hcalls hcalls' (List.append_cancel_left heq) hr hr'
    exact ⟨rfl, rfl⟩

theorem noCall : Determined (.calls a) [] a := by
  intro ts' e' r r' h' heq hr hr'
  cases h' with
  | noCall => exact ⟨rfl, rfl⟩
  | call =>
    obtain ⟨t, us, rfl, ht⟩ := hr
    obtain ⟨rfl, -⟩ := List.cons.inj heq
    exact absurd ht (show "(" ∉ Phrase.application.follow by decide)

/-- A call: the arguments are equal one after the other, and so are the calls behind them. -/
theorem call {args : List (List String × Expr)}
    (hread : ∀ arg ∈ args, Reads .expression arg.1 arg.2)
    (hargs : ∀ arg ∈ args, Determined .expression arg.1 arg.2)
    (hcalls : Determined (.calls (.call a (args.map Prod.snd))) us e) :
    Determined (.calls a) ("(" :: (commas (args.map Prod.fst) ++ ")" :: us)) e := by
  intro ts' e' r r' h' heq hr hr'
  cases h' with
  | noCall =>
    obtain ⟨t, us, rfl, ht⟩ := hr'
    obtain ⟨rfl, -⟩ := List.cons.inj heq
    exact absurd ht (show "(" ∉ Phrase.application.follow by decide)
  | call hread' hcalls' =>
    simp only [List.cons_append, List.append_assoc, List.cons.injEq, true_and] at heq
    obtain ⟨rfl, hrest⟩ := commas_unique (Reads .expression) Reads.begins_ne_rparen hargs hread
      hread' heq
    obtain ⟨rfl, rfl⟩ := hcalls hcalls' hrest hr hr'
    exact ⟨rfl, rfl⟩

theorem paren (h : Determined .expression ts e) :
    Determined .primary ("(" :: (ts ++ [")"])) (.paren e) := by
  intro ts' e' r r' h' heq hr hr'
  obtain ⟨us, a, rfl, rfl, hinner⟩ := h'.of_lparen heq.symm
  simp only [List.cons_append, List.append_assoc, List.cons.injEq, true_and] at heq
  obtain ⟨rfl, rfl⟩ := h hinner heq (follows_cons (by decide) _) (follows_cons (by decide) _)
  exact ⟨rfl, rfl⟩

theorem pow (ha : Determined .expression ts a) (hb : Determined .expression us b) :
    Determined .primary (mathPow :: "(" :: (ts ++ "," :: (us ++ [")"]))) (.binary .pow a b) := by
  intro ts' e' r r' h' heq hr hr'
  obtain ⟨ts', us', a', b', rfl, rfl, ha', hb'⟩ := h'.of_mathPow heq.symm
  simp only [List.cons_append, List.append_assoc, List.cons.injEq, true_and] at heq
  obtain ⟨rfl, rfl⟩ := ha ha' heq (follows_cons (by decide) _) (follows_cons (by decide) _)
  replace heq := List.append_cancel_left heq
  simp only [List.cons.injEq, true_and] at heq
  obtain ⟨rfl, rfl⟩ := hb hb' heq (follows_cons (by decide) _) (follows_cons (by decide) _)
  exact ⟨rfl, rfl⟩

end Determined

/-- **Phrases that begin the same list of tokens are equal**, if neither is followed by what could
go on with it. -/
theorem Reads.determined {p : Phrase} {ts : List String} {e : Expr} (h : Reads p ts e) :
    Determined p ts e := by
  induction h with
  | arrow hparams _ ih => exact ih.arrow hparams
  | declare _ _ ih => exact ih.declare
  | ofSum h ih => exact ih.ofSum h
  | chain _ hrest ihfirst ihrest => exact ihfirst.chain hrest ihrest
  | done => exact .done
  | more hop _ hrest ih ihrest => exact ih.more hop hrest ihrest
  | minus _ ih => exact ih.minus
  | ofApplication h ih => exact ih.ofApplication h
  | application _ hcalls ihcallee ihcalls => exact ihcallee.application hcalls ihcalls
  | noCall => exact .noCall
  | call hargs _ ihargs ihcalls => exact ihcalls.call hargs ihargs
  | var hx =>
    intro ts' e' r r' h' heq _ _
    obtain ⟨rfl, rfl⟩ := h'.of_name hx heq.symm
    exact ⟨rfl, rfl⟩
  | int hw =>
    intro ts' e' r r' h' heq _ _
    obtain ⟨rfl, rfl⟩ := h'.of_integer hw heq.symm
    exact ⟨rfl, rfl⟩
  | paren _ ih => exact ih.paren
  | pow _ _ iha ihb => exact iha.pow ihb

/-- Tokens are read as statements in one way only. -/
theorem Statements.unique {ts : List String} {es es' : List Expr} (h : Statements ts es)
    (h' : Statements ts es') : es = es' := by
  generalize hts : ts = ts' at h'
  induction h generalizing ts' es' with
  | nil =>
    cases h' with
    | nil => rfl
    | cons => simp at hts
  | cons h _ ih =>
    cases h' with
    | nil => simp at hts
    | cons h' hrest' =>
      obtain ⟨rfl, rfl⟩ := h.determined h' hts (follows_cons (by decide) _)
        (follows_cons (by decide) _)
      obtain rfl := ih _ (List.cons.inj (List.append_cancel_left hts)).2 hrest'
      rfl

/-- **A text has one reading at most.** -/
theorem IsReading.unique {text : String} {t t' : Expr} (h : IsReading text t)
    (h' : IsReading text t') : t = t' := by
  obtain ⟨ws, es, hws, hes, rfl⟩ := h
  obtain ⟨ws', es', hws', hes', rfl⟩ := h'
  rw [hws'.unique hws] at hes'
  rw [hes.unique hes']

/-! ### The tokens of a phrase

What holds of names, integers and symbols holds of everything in a phrase. -/

/-- The tokens of phrases that are neither names nor integers. -/
def symbols : List String :=
  ["(", ")", "\x7b", "\x7d", ",", ";", "=", "=>", "+", "-", "*", "/", "let", "return", mathPow]

/-- The symbols of the operators of all levels. -/
def operatorSymbols : List String := ["+", "-", "*", "/"]

theorem Level.mem_operatorSymbols {level : Level} {t : String} {op : BinaryOp}
    (h : (t, op) ∈ level.operators) : t ∈ operatorSymbols := by
  have htable : ∀ entry ∈ level.operators, entry.1 ∈ operatorSymbols := by cases level <;> decide
  exact htable (t, op) h

theorem forall_mem_commas {P : String → Prop} {pieces : List (List String)} (hcomma : P ",")
    (h : ∀ piece ∈ pieces, ∀ t ∈ piece, P t) : ∀ t ∈ commas pieces, P t := by
  induction pieces with
  | nil => exact List.forall_mem_nil _
  | cons piece pieces ih =>
    obtain ⟨hpiece, hpieces⟩ := List.forall_mem_cons.mp h
    rw [commas_cons, List.forall_mem_append]
    refine ⟨hpiece, ?_⟩
    cases pieces with
    | nil => exact List.forall_mem_nil _
    | cons next rest => exact List.forall_mem_cons.mpr ⟨hcomma, ih hpieces⟩

/-- The tokens of a phrase are names, integers and symbols. -/
theorem Reads.forall_mem {P : String → Prop} (hname : ∀ x, IsName x → P x)
    (hinteger : ∀ w, IsInteger w → P w) (hsymbol : ∀ w ∈ symbols, P w) {p : Phrase}
    {ts : List String} {e : Expr} (h : Reads p ts e) : ∀ t ∈ ts, P t := by
  have hfixed := hsymbol
  simp only [symbols, List.forall_mem_cons] at hfixed
  obtain ⟨hopen, hclose, hbrace, hbrace', hcomma, hend, hassign, harrow, -, hminus, -, -, hlet,
    hreturn, hpow, -⟩ := hfixed
  induction h with
  | arrow hparams _ ih =>
    have hcommas := forall_mem_commas hcomma (List.forall_mem_map.mpr fun x hx =>
      List.forall_mem_singleton.mpr (hname x (hparams x hx)))
    simp only [List.forall_mem_cons, List.forall_mem_append]
    exact ⟨hopen, hcommas, hclose, harrow, hbrace, hreturn, ih, hend, hbrace',
      List.forall_mem_nil _⟩
  | declare hx _ ih =>
    simp only [List.forall_mem_cons]
    exact ⟨hlet, hname _ hx, hassign, ih⟩
  | ofSum _ ih | ofApplication _ ih => exact ih
  | chain _ _ ihfirst ihrest | application _ _ ihfirst ihrest =>
    exact List.forall_mem_append.mpr ⟨ihfirst, ihrest⟩
  | done | noCall => exact List.forall_mem_nil _
  | more hop _ _ ih ihrest =>
    have htable : ∀ t ∈ operatorSymbols, t ∈ symbols := by decide
    simp only [List.forall_mem_cons, List.forall_mem_append]
    exact ⟨hsymbol _ (htable _ (Level.mem_operatorSymbols hop)), ih, ihrest⟩
  | minus _ ih => exact List.forall_mem_cons.mpr ⟨hminus, ih⟩
  | call _ _ ihargs ihcalls =>
    simp only [List.forall_mem_cons, List.forall_mem_append]
    exact ⟨hopen, forall_mem_commas hcomma (List.forall_mem_map.mpr ihargs), hclose, ihcalls⟩
  | var hx => exact List.forall_mem_singleton.mpr (hname _ hx)
  | int hw => exact List.forall_mem_singleton.mpr (hinteger _ hw)
  | paren _ ih =>
    simp only [List.forall_mem_cons, List.forall_mem_append]
    exact ⟨hopen, ih, hclose, List.forall_mem_nil _⟩
  | pow _ _ iha ihb =>
    simp only [List.forall_mem_cons, List.forall_mem_append]
    exact ⟨hpow, hopen, iha, hcomma, ihb, hclose, List.forall_mem_nil _⟩

theorem Statements.forall_mem {P : String → Prop} (hname : ∀ x, IsName x → P x)
    (hinteger : ∀ w, IsInteger w → P w) (hsymbol : ∀ w ∈ symbols, P w) {ts : List String}
    {es : List Expr} (h : Statements ts es) : ∀ t ∈ ts, P t := by
  induction h with
  | nil => exact List.forall_mem_nil _
  | cons h _ ih =>
    simp only [List.forall_mem_cons, List.forall_mem_append]
    exact ⟨h.forall_mem hname hinteger hsymbol, hsymbol _ (by decide), ih⟩

end JavaScript

end ArrowCalc
