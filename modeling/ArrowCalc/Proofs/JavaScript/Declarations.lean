import ArrowCalc.Mode
import ArrowCalc.Proofs.JavaScript.Emission
import Mathlib.Data.List.Chain
import Mathlib.Data.List.Nodup

/-!
# Declarations in scripts

JavaScript has a rule for the place of a `let` and one for its name. A `let` is the first token of a
statement, and no name is declared twice by statements of the same block.

Here a declaration is an expression, and a name may be declared as often as one likes. The writer
puts a `let` wherever the tree has a declaration, so a script need not follow the rules. Whether it
does can be seen from the source: every declaration is a statement of the program, and no two
statements declare the same name.

The rules are stated about tokens. Where a statement begins can be seen from the token in front, and
where a block begins and ends from the braces. Both have to be compared with the phrases that the
tokens form. Inside a phrase no `let` stands where a statement begins (`Reads.isBuried`), and a
phrase without a `let` does not change the block that one is in (`Reads.isSilent`).

## Main definitions

* `JavaScript.LegalLets` — the tokens follow the rules for `let`
* `Expr.declared?`, `Expr.buriesDeclaration` — the declarations at the root and below it

## Main results

* `JavaScript.Statements.legalLets_iff` — when statements follow the rules
* `Mode.legalLets_compile_iff` — when the script of a source follows the rules
* `Mode.not_legalLets_compile` — scripts that break them
-/

namespace ArrowCalc

/-! ### Declarations in trees

Where the declarations of a tree are does not depend on its unary pluses or on its parentheses, so
it may be asked of the tree or of its normal form. The script is read as the latter. -/

mutual

/-- Whether there is a declaration in the tree. -/
def Expr.hasDeclaration : Expr → Bool
  | .malformed _ | .int _ | .var _ => false
  | .block statements => Expr.anyDeclaration statements
  | .binary _ left right => left.hasDeclaration || right.hasDeclaration
  | .unary _ operand => operand.hasDeclaration
  | .paren inner => inner.hasDeclaration
  | .declare _ _ => true
  | .func _ body => body.hasDeclaration
  | .call callee args => callee.hasDeclaration || Expr.anyDeclaration args

/-- Whether there is a declaration in one of the trees. -/
def Expr.anyDeclaration : List Expr → Bool
  | [] => false
  | e :: es => e.hasDeclaration || Expr.anyDeclaration es

end

namespace Expr

/-- The name that is declared at the root. -/
def declared? : Expr → Option String
  | declare name _ => some name
  | _ => none

/-- Whether there is a declaration below the root. -/
def buriesDeclaration : Expr → Bool
  | declare _ value => value.hasDeclaration
  | e => e.hasDeclaration

theorem anyDeclaration_iff {es : List Expr} :
    anyDeclaration es = true ↔ ∃ e ∈ es, e.hasDeclaration = true := by
  induction es with
  | nil => simp [anyDeclaration]
  | cons e es ih => simp [anyDeclaration, ih]

theorem buriesDeclaration_of_declared? {e : Expr} (h : e.declared? = none) :
    e.buriesDeclaration = e.hasDeclaration := by
  cases e with
  | declare => cases h
  | _ => rfl

mutual

/-- Dropping unary pluses and parentheses drops no declaration. -/
theorem hasDeclaration_normAs (bare : Bool) :
    ∀ e : Expr, (e.normAs bare).hasDeclaration = e.hasDeclaration
  | .malformed _ | .int _ | .var _ | .declare _ _ => rfl
  | .block statements => anyDeclaration_normEach statements
  | .binary .pow left right => by
    rw [normAs, hasDeclaration, hasDeclaration_normAs true left, hasDeclaration_normAs true right,
      hasDeclaration]
  | .binary .add left right | .binary .sub left right | .binary .mul left right
  | .binary .div left right => by
    simp only [normAs, hasDeclaration, hasDeclaration_normAs false left,
      hasDeclaration_normAs false right]
  | .unary .plus operand | .unary .minus operand => hasDeclaration_normAs false operand
  | .paren inner => by
    cases bare <;> exact hasDeclaration_normAs false inner
  | .func _ body => hasDeclaration_normAs false body
  | .call callee args => by
    rw [normAs, hasDeclaration, hasDeclaration_normAs false callee, anyDeclaration_normEach args,
      hasDeclaration]

theorem anyDeclaration_normEach : ∀ es : List Expr,
    anyDeclaration (normEach es) = anyDeclaration es
  | [] => rfl
  | e :: es => by
    rw [normEach, anyDeclaration, hasDeclaration_normAs false e, anyDeclaration_normEach es,
      anyDeclaration]

end

/-- A tree that fits anywhere but at the place of a statement is no declaration, and neither is its
normal form. -/
theorem Fits.declared?_eq_none {layer : Grammar.Layer} {e : Expr} (h : e.Fits layer)
    (hlayer : layer ≠ .statement) : e.declared? = none ∧ e.norm.declared? = none := by
  induction h with
  | func | declare | ofSum => exact absurd rfl hlayer
  | sum hop => rcases hop with rfl | rfl <;> exact ⟨rfl, rfl⟩
  | product hop => rcases hop with rfl | rfl <;> exact ⟨rfl, rfl⟩
  | @sign op _ _ ih =>
    cases op with
    | plus => exact ⟨rfl, (ih (by decide)).2⟩
    | minus => exact ⟨rfl, rfl⟩
  | ofProduct _ ih | ofSigned _ ih | ofPower _ ih | ofApplication _ ih | ofPrimary _ ih =>
    exact ih (by decide)
  | power | call | var | int | paren => exact ⟨rfl, rfl⟩

theorem Fits.declared?_norm {e : Expr} (h : e.Fits .statement) :
    e.norm.declared? = e.declared? := by
  cases h with
  | func | declare => rfl
  | ofSum h =>
    obtain ⟨he, hnorm⟩ := h.declared?_eq_none (by decide)
    rw [he, hnorm]

/-- Nor does it move one to the root. -/
theorem Fits.buriesDeclaration_norm {e : Expr} (h : e.Fits .statement) :
    e.norm.buriesDeclaration = e.buriesDeclaration := by
  cases h with
  | func | declare => exact hasDeclaration_normAs false _
  | ofSum h =>
    obtain ⟨he, hnorm⟩ := h.declared?_eq_none (by decide)
    rw [buriesDeclaration_of_declared? he, buriesDeclaration_of_declared? hnorm]
    exact hasDeclaration_normAs false e

end Expr

namespace JavaScript

open Phrase

/-! ### The rules

Both are stated for tokens, without the grammar and without trees, as an engine would check them. -/

/-- The token ends a statement or opens a block, so that a statement begins behind it. -/
def EndsStatement (t : String) : Prop := t = ";" ∨ t = "\x7b"

/-- A `let` stands only where a statement begins. -/
def StartsStatement (a b : String) : Prop := b = "let" → EndsStatement a

instance : DecidablePred EndsStatement := fun t =>
  inferInstanceAs (Decidable (t = ";" ∨ t = "\x7b"))

instance : DecidableRel StartsStatement := fun a b =>
  inferInstanceAs (Decidable (b = "let" → a = ";" ∨ a = "\x7b"))

/-- The declarations among the tokens, each with the block in which it stands. A block is known by
the place of its brace. The first token has the place `n`, and `blocks` are the blocks that are open
there, the innermost first. -/
def declarations (n : ℕ) (blocks : List ℕ) : List String → List (Option ℕ × String)
  | [] => []
  | t :: ts =>
    if t = "let" then (blocks.head?, ts.headD "") :: declarations (n + 1) blocks ts
    else if t = "\x7b" then declarations (n + 1) (n :: blocks) ts
    else if t = "\x7d" then declarations (n + 1) blocks.tail ts
    else declarations (n + 1) blocks ts

/-- The tokens follow the rules for `let`. -/
structure LegalLets (ws : List String) : Prop where
  starts : ws.IsChain StartsStatement
  nodup : (declarations 0 [] ws).Nodup

instance (ws : List String) : Decidable (LegalLets ws) :=
  decidable_of_iff (ws.IsChain StartsStatement ∧ (declarations 0 [] ws).Nodup)
    ⟨fun h => ⟨h.1, h.2⟩, fun h => ⟨h.1, h.2⟩⟩

-- a name may be declared again in an inner block, but not behind it
example : LegalLets ["let", "x", "=", "1", ";", "\x7b", "let", "x", "=", "2", ";", "\x7d"] := by
  decide

example : ¬ LegalLets ["let", "x", "=", "\x7b", "\x7d", ";", "let", "x", "=", "2", ";"] := by
  decide

/-! ### Where a phrase has a `let`

The writer produces a `let` for a declaration and for nothing else. For a phrase that goes on with
another one, such as a sum without its first operand, the tree has a part that was read before, and
that part has to be set aside. -/

theorem IsName.ne_let {x : String} (h : IsName x) : x ≠ "let" := h.2.1

theorem IsInteger.ne_let {w : String} (h : IsInteger w) : w ≠ "let" := by
  rintro rfl
  exact absurd h (by decide)

theorem let_mem_commas {pieces : List (List String)} :
    "let" ∈ commas pieces ↔ ∃ piece ∈ pieces, "let" ∈ piece := by
  induction pieces with
  | nil => simp [commas]
  | cons piece pieces ih =>
    cases pieces with
    | nil => simp [commas_cons, commasAfter]
    | cons next rest => simp [commas_cons piece, commasAfter, ih]

/-- The tree in front of a phrase that goes on with another one. -/
def Phrase.left? : Phrase → Option Expr
  | rest _ a | calls a => some a
  | _ => none

theorem Level.left?_operand (level : Level) : level.operand.left? = none := by
  cases level <;> rfl

theorem Level.operand_ne_expression (level : Level) : level.operand ≠ .expression := by
  cases level <;> exact nofun

theorem let_notMem_params {params : List String} (h : ∀ x ∈ params, IsName x) :
    "let" ∉ commas (params.map fun x => [x]) := by
  intro hmem
  obtain ⟨piece, hpiece, hlet⟩ := let_mem_commas.mp hmem
  obtain ⟨x, hx, rfl⟩ := List.mem_map.mp hpiece
  exact (h x hx).ne_let (List.mem_singleton.mp hlet).symm

/-- There is a declaration in the tree of a phrase if there is a `let` among its tokens, or a
declaration in what stands in front of it. -/
theorem Reads.hasDeclaration_iff {p : Phrase} {ts : List String} {e : Expr} (h : Reads p ts e) :
    e.hasDeclaration = true ↔
      p.left?.any Expr.hasDeclaration = true ∨ "let" ∈ ts := by
  induction h with
  | arrow hparams _ ih => simp [Expr.hasDeclaration, Phrase.left?, ih, let_notMem_params hparams]
  | declare => simp [Expr.hasDeclaration]
  | ofSum _ ih | ofApplication _ ih => simpa [Phrase.left?] using ih
  | chain _ _ ihfirst ihrest =>
    rw [Level.left?_operand] at ihfirst
    simp [Phrase.left?, ihrest, ihfirst]
  | application _ _ ihfirst ihrest => simp [Phrase.left?, ihrest, ihfirst]
  | done | noCall => simp [Phrase.left?]
  | more hop _ _ ih ihrest =>
    rw [Level.left?_operand] at ih
    have htable : ∀ t ∈ operatorSymbols, "let" ≠ t := by decide
    have hne := htable _ (Level.mem_operatorSymbols hop)
    simp [Expr.hasDeclaration, Phrase.left?, ih, ihrest, hne, or_assoc]
  | minus _ ih => simp [Expr.hasDeclaration, Phrase.left?, ih]
  | @call args us a e _ _ ihargs ihcalls =>
    -- nothing was read in front of an argument, so a declaration in it is a `let` of its own
    have hargs : Expr.anyDeclaration (args.map Prod.snd) = true ↔
        "let" ∈ commas (args.map Prod.fst) := by
      have hlet : ∀ arg ∈ args, arg.2.hasDeclaration = true ↔ "let" ∈ arg.1 := fun arg harg => by
        simpa [Phrase.left?] using ihargs arg harg
      simp only [Expr.anyDeclaration_iff, let_mem_commas, List.mem_map, exists_exists_and_eq_and]
      exact exists_congr fun arg => and_congr_right (hlet arg)
    simp [Expr.hasDeclaration, Phrase.left?, ihcalls, hargs, or_assoc]
  | var hx => simp [Expr.hasDeclaration, Phrase.left?, hx.ne_let.symm]
  | int hw => simp [Expr.hasDeclaration, Phrase.left?, hw.ne_let.symm]
  | paren _ ih => simp [Expr.hasDeclaration, Phrase.left?, ih]
  | pow _ _ iha ihb => simp [Expr.hasDeclaration, Phrase.left?, iha, ihb, mathPow]

/-- The tree of an operand is no declaration, unless it was there before. -/
theorem Reads.declared?_eq_none {p : Phrase} {ts : List String} {e : Expr} (h : Reads p ts e)
    (hp : p ≠ .expression) (hleft : ∀ a, p.left? = some a → a.declared? = none) :
    e.declared? = none := by
  induction h with
  | arrow | declare | ofSum => exact absurd rfl hp
  | @chain level _ _ a _ _ _ ihfirst ihrest =>
    have ha : a.declared? = none := by
      refine ihfirst level.operand_ne_expression fun b hb => ?_
      rw [level.left?_operand] at hb
      cases hb
    refine ihrest nofun fun b hb => ?_
    cases hb
    exact ha
  | application _ _ ihcallee ihcalls =>
    have ha := ihcallee nofun nofun
    refine ihcalls nofun fun b hb => ?_
    cases hb
    exact ha
  | done | noCall => exact hleft _ rfl
  | more _ _ _ _ ihrest | call _ _ _ ihrest =>
    refine ihrest nofun fun b hb => ?_
    cases hb
    rfl
  | ofApplication _ ih => exact ih nofun nofun
  | minus | var | int | paren | pow => rfl

/-- Only expressions begin with a `let`. -/
theorem Reads.head?_ne_let {p : Phrase} {ts : List String} {e : Expr} (h : Reads p ts e)
    (hp : p ≠ .expression) : ts.head? ≠ some "let" := by
  by_cases hrest : p.IsRest
  · cases h with
    | done | noCall => exact nofun
    | more hop =>
      have htable : ∀ t ∈ operatorSymbols, t ≠ "let" := by decide
      exact fun heq => htable _ (Level.mem_operatorSymbols hop) (Option.some.inj heq)
    | call => exact fun heq => absurd (Option.some.inj heq) (by decide)
    | _ => exact absurd hrest id
  · obtain ⟨t, us, rfl, ht⟩ := h.begins hrest
    rintro ⟨⟩
    revert ht
    cases p with
    | expression => exact absurd rfl hp
    | rest | calls => exact absurd trivial hrest
    | chain level => cases level <;> decide
    | signed | application | primary => decide

/-- An expression is a declaration, or it neither is one nor begins like one. -/
theorem Reads.expression_cases {ts : List String} {e : Expr} (h : Reads .expression ts e) :
    (∃ x us value, ts = "let" :: x :: "=" :: us ∧ e = .declare x value ∧ IsName x ∧
        Reads .expression us value) ∨
      (e.declared? = none ∧ ts.head? ≠ some "let") := by
  cases h with
  | arrow => exact .inr ⟨rfl, fun heq => absurd (Option.some.inj heq) (by decide)⟩
  | declare hx h => exact .inl ⟨_, _, _, rfl, rfl, hx, h⟩
  | ofSum h => exact .inr ⟨h.declared?_eq_none nofun nofun, h.head?_ne_let nofun⟩

/-- A `let` that is not the first token stands behind it. -/
theorem let_mem_tail_iff {ts : List String} (h : ts.head? ≠ some "let") :
    "let" ∈ ts.tail ↔ "let" ∈ ts := by
  cases ts with
  | nil => rfl
  | cons t ts =>
    have hne : "let" ≠ t := fun heq => h (congrArg some heq.symm)
    rw [List.tail_cons, List.mem_cons, or_iff_right hne]

/-- A `let` behind the first token of a statement is a declaration below the root. -/
theorem Reads.buriesDeclaration_iff {ts : List String} {e : Expr} (h : Reads .expression ts e) :
    e.buriesDeclaration = true ↔ "let" ∈ ts.tail := by
  rcases h.expression_cases with ⟨x, us, value, rfl, rfl, hx, hvalue⟩ | ⟨he, hhead⟩
  · simp [Expr.buriesDeclaration, hvalue.hasDeclaration_iff, Phrase.left?, hx.ne_let.symm]
  · rw [Expr.buriesDeclaration_of_declared? he, let_mem_tail_iff hhead]
    simpa [Phrase.left?] using h.hasDeclaration_iff

/-! ### Where a statement begins

The first rule would allow a `let` behind a brace as well. In the scripts at hand there is none,
because the body of a function is a `return`. So every `let` inside of a phrase breaks the rule. -/

/-- No `let` stands where a statement begins, unless it is the first token. -/
def IsBuried (ts : List String) : Prop := ts.IsChain fun a b => b = "let" → ¬ EndsStatement a

section IsBuried

variable {t : String} {ts us : List String}

theorem head?_cons_ne_let (ht : t ≠ "let") : (t :: ts).head? ≠ some "let" :=
  fun heq => ht (Option.some.inj heq)

theorem IsBuried.cons (h : IsBuried ts) (ht : ¬ EndsStatement t) : IsBuried (t :: ts) :=
  List.IsChain.cons h fun _ _ _ => ht

theorem IsBuried.cons_of_head? (h : IsBuried ts) (hts : ts.head? ≠ some "let") :
    IsBuried (t :: ts) :=
  List.IsChain.cons h fun _ hb heq => absurd (heq ▸ hb) hts

theorem IsBuried.append (h : IsBuried ts) (h' : IsBuried us) (hus : us.head? ≠ some "let") :
    IsBuried (ts ++ us) :=
  List.IsChain.append h h' fun _ _ _ hb heq => absurd (heq ▸ hb) hus

theorem isBuried_commas {pieces : List (List String)} (h : ∀ piece ∈ pieces, IsBuried piece) :
    IsBuried (commas pieces) := by
  induction pieces with
  | nil => exact .nil
  | cons piece pieces ih =>
    obtain ⟨hpiece, hpieces⟩ := List.forall_mem_cons.mp h
    rw [commas_cons]
    cases pieces with
    | nil => exact hpiece.append .nil nofun
    | cons next rest =>
      exact hpiece.append ((ih hpieces).cons (by decide)) (head?_cons_ne_let (by decide))

end IsBuried

/-- Inside a phrase no `let` stands where a statement begins. -/
theorem Reads.isBuried {p : Phrase} {ts : List String} {e : Expr} (h : Reads p ts e) :
    IsBuried ts := by
  induction h with
  | @arrow params _ _ _ _ ih =>
    have hends : IsBuried [";", "\x7d"] :=
      IsBuried.cons_of_head? (.singleton "\x7d") (head?_cons_ne_let (by decide))
    -- behind the brace comes `return`, and the body stands behind that
    have hreturn := (ih.append hends (by decide)).cons (t := "return") (by decide)
    have hblock := hreturn.cons_of_head? (t := "\x7b") (head?_cons_ne_let (by decide))
    have hrest := (hblock.cons (t := "=>") (by decide)).cons (t := ")") (by decide)
    have hparams : IsBuried (commas (params.map fun x => [x])) :=
      isBuried_commas (List.forall_mem_map.mpr fun x _ => .singleton x)
    exact (hparams.append hrest (head?_cons_ne_let (by decide))).cons (by decide)
  | @declare x _ _ hx _ ih =>
    have hvalue := ih.cons (t := "=") (by decide)
    have hname := hvalue.cons_of_head? (t := x) (head?_cons_ne_let (by decide))
    exact hname.cons_of_head? (head?_cons_ne_let hx.ne_let)
  | ofSum _ ih | ofApplication _ ih => exact ih
  | chain _ hrest ihfirst ihrest => exact ihfirst.append ihrest (hrest.head?_ne_let nofun)
  | application _ hcalls ihcallee ihcalls =>
    exact ihcallee.append ihcalls (hcalls.head?_ne_let nofun)
  | done | noCall => exact .nil
  | more hop _ hrest ih ihrest =>
    have htable : ∀ t ∈ operatorSymbols, ¬ EndsStatement t := by decide
    have hoperand := ih.append ihrest (hrest.head?_ne_let nofun)
    exact hoperand.cons (htable _ (Level.mem_operatorSymbols hop))
  | minus _ ih => exact ih.cons (by decide)
  | call _ _ ihargs ihcalls =>
    have hargs := isBuried_commas (List.forall_mem_map.mpr ihargs)
    have hcalls := ihcalls.cons (t := ")") (by decide)
    exact (hargs.append hcalls (head?_cons_ne_let (by decide))).cons (by decide)
  | var | int => exact .singleton _
  | paren _ ih => exact (ih.append (.singleton _) (by decide)).cons (by decide)
  | pow _ _ iha ihb =>
    have hb := (ihb.append (.singleton ")") (by decide)).cons (t := ",") (by decide)
    exact ((iha.append hb (head?_cons_ne_let (by decide))).cons (by decide)).cons (by decide)

/-- Where no `let` begins a statement, the rule allows it nowhere but in front. -/
theorem IsBuried.isChain_iff {ts : List String} (h : IsBuried ts) :
    ts.IsChain StartsStatement ↔ "let" ∉ ts.tail := by
  induction ts with
  | nil => exact iff_of_true .nil List.not_mem_nil
  | cons a ts ih =>
    cases ts with
    | nil => exact iff_of_true (.singleton a) List.not_mem_nil
    | cons b ts =>
      obtain ⟨hb, h⟩ := List.isChain_cons_cons.mp h
      rw [List.isChain_cons_cons, ih h, List.tail_cons, List.tail_cons, List.mem_cons, not_or]
      refine and_congr_left' ⟨?_, fun hne heq => absurd heq.symm hne⟩
      rintro hstarts rfl
      exact hb rfl (hstarts rfl)

/-- Behind a semicolon the first rule starts afresh. -/
theorem isChain_append_end {ts us : List String} :
    (ts ++ ";" :: us).IsChain StartsStatement ↔
      ts.IsChain StartsStatement ∧ us.IsChain StartsStatement := by
  have hend : ∀ t ∈ us.head?, StartsStatement ";" t := fun _ _ _ => .inl rfl
  have hinner : ∀ s ∈ ts.getLast?, ∀ t ∈ (";" :: us).head?, StartsStatement s t := by
    rintro s - t ⟨⟩ heq
    exact absurd heq (by decide)
  rw [List.isChain_append, List.isChain_cons]
  exact ⟨fun h => ⟨h.1, h.2.1.2⟩, fun h => ⟨h.1, ⟨hend, h.2⟩, hinner⟩⟩

/-- Every `let` begins a statement exactly if no statement has a declaration below its root. -/
theorem Statements.isChain_iff {ws : List String} {es : List Expr} (h : Statements ws es) :
    ws.IsChain StartsStatement ↔ ∀ e ∈ es, e.buriesDeclaration = false := by
  induction h with
  | nil => exact iff_of_true .nil (List.forall_mem_nil _)
  | cons h _ ih =>
    rw [isChain_append_end, h.isBuried.isChain_iff, ← h.buriesDeclaration_iff, ih,
      List.forall_mem_cons, Bool.not_eq_true]

/-! ### What the blocks declare

The second rule is about one block at a time. All declarations that the first rule allows are in the
outermost block, where no brace is open, and the blocks in between leave no trace. -/

/-- The tokens declare nothing, and the same blocks are open in front of them and behind them. -/
def IsSilent (ts : List String) : Prop :=
  ∀ n blocks us, declarations n blocks (ts ++ us) = declarations (n + ts.length) blocks us

/-- The tokens with an influence on what is declared. -/
def scopeTokens : List String := ["let", "\x7b", "\x7d"]

section IsSilent

variable {t : String} {ts us : List String}

/-- A token that is neither a `let` nor a brace is passed over. -/
theorem declarations_cons (ht : t ∉ scopeTokens) (n : ℕ) (blocks : List ℕ) (ts : List String) :
    declarations n blocks (t :: ts) = declarations (n + 1) blocks ts := by
  simp only [scopeTokens, List.mem_cons, List.not_mem_nil, or_false, not_or] at ht
  rw [declarations, if_neg ht.1, if_neg ht.2.1, if_neg ht.2.2]

theorem isSilent_nil : IsSilent [] := fun _ _ _ => rfl

theorem IsSilent.cons (h : IsSilent ts) (ht : t ∉ scopeTokens) : IsSilent (t :: ts) := by
  intro n blocks us
  rw [List.cons_append, declarations_cons ht, h, List.length_cons, Nat.add_right_comm,
    Nat.add_assoc]

theorem IsSilent.append (h : IsSilent ts) (h' : IsSilent us) : IsSilent (ts ++ us) := by
  intro n blocks vs
  rw [List.append_assoc, h, h', List.length_append, Nat.add_assoc]

/-- A block is closed where it ends. -/
theorem IsSilent.block (h : IsSilent ts) : IsSilent ("\x7b" :: (ts ++ ["\x7d"])) := by
  intro n blocks us
  rw [List.cons_append, List.append_assoc, declarations, if_neg (by decide), if_pos rfl, h,
    List.singleton_append, declarations, if_neg (by decide), if_neg (by decide), if_pos rfl,
    List.tail_cons, List.length_cons, List.length_append, List.length_singleton]
  congr 1
  omega

theorem isSilent_commas {pieces : List (List String)} (h : ∀ piece ∈ pieces, IsSilent piece) :
    IsSilent (commas pieces) := by
  induction pieces with
  | nil => exact isSilent_nil
  | cons piece pieces ih =>
    obtain ⟨hpiece, hpieces⟩ := List.forall_mem_cons.mp h
    rw [commas_cons]
    cases pieces with
    | nil => exact hpiece.append isSilent_nil
    | cons next rest => exact hpiece.append ((ih hpieces).cons (by decide))

end IsSilent

/-- Names are neither keywords nor punctuators. -/
theorem IsName.notMem_scopeTokens {x : String} (h : IsName x) : x ∉ scopeTokens := by
  have htable : ∀ w ∈ scopeTokens, ¬ IsName w := by decide
  exact fun hx => htable x hx h

theorem IsInteger.notMem_scopeTokens {w : String} (h : IsInteger w) : w ∉ scopeTokens := by
  have htable : ∀ w ∈ scopeTokens, ¬ IsInteger w := by decide
  exact fun hw => htable w hw h

/-- A phrase without a `let` has no influence on what is declared behind it. -/
theorem Reads.isSilent {p : Phrase} {ts : List String} {e : Expr} (h : Reads p ts e)
    (hlet : "let" ∉ ts) : IsSilent ts := by
  induction h with
  | @arrow params ts e hparams _ ih =>
    simp only [List.mem_cons, List.mem_append, not_or] at hlet
    have hbody := (((ih hlet.2.2.2.2.2.2.1).append (isSilent_nil.cons (t := ";") (by decide))).cons
      (t := "return") (by decide)).block
    rw [List.cons_append, List.append_assoc] at hbody
    have hnames := isSilent_commas (List.forall_mem_map.mpr fun x hx =>
      isSilent_nil.cons (hparams x hx).notMem_scopeTokens)
    exact (hnames.append ((hbody.cons (by decide)).cons (by decide))).cons (by decide)
  | declare => exact absurd List.mem_cons_self hlet
  | ofSum _ ih | ofApplication _ ih => exact ih hlet
  | chain _ _ ihfirst ihrest | application _ _ ihfirst ihrest =>
    rw [List.mem_append, not_or] at hlet
    exact (ihfirst hlet.1).append (ihrest hlet.2)
  | done | noCall => exact isSilent_nil
  | more hop _ _ ih ihrest =>
    simp only [List.mem_cons, List.mem_append, not_or] at hlet
    have htable : ∀ t ∈ operatorSymbols, t ∉ scopeTokens := by decide
    have hoperand := (ih hlet.2.1).append (ihrest hlet.2.2)
    exact hoperand.cons (htable _ (Level.mem_operatorSymbols hop))
  | minus _ ih => exact (ih (List.not_mem_of_not_mem_cons hlet)).cons (by decide)
  | @call args us _ _ _ _ ihargs ihcalls =>
    simp only [List.mem_cons, List.mem_append, not_or] at hlet
    have hargs : IsSilent (commas (args.map Prod.fst)) :=
      isSilent_commas (List.forall_mem_map.mpr fun arg harg => ihargs arg harg fun hmem =>
        hlet.2.1 (let_mem_commas.mpr ⟨arg.1, List.mem_map_of_mem harg, hmem⟩))
    exact (hargs.append ((ihcalls hlet.2.2.2).cons (by decide))).cons (by decide)
  | var hx => exact isSilent_nil.cons hx.notMem_scopeTokens
  | int hw => exact isSilent_nil.cons hw.notMem_scopeTokens
  | paren _ ih =>
    simp only [List.mem_cons, List.mem_append, not_or] at hlet
    exact ((ih hlet.2.1).append (isSilent_nil.cons (by decide))).cons (by decide)
  | pow _ _ iha ihb =>
    simp only [List.mem_cons, List.mem_append, not_or] at hlet
    have hb := (ihb hlet.2.2.2.2.1).append (isSilent_nil.cons (t := ")") (by decide))
    exact (((iha hlet.2.2.1).append (hb.cons (by decide))).cons (by decide)).cons (by decide)

theorem IsSilent.declarations_append {ts : List String} (h : IsSilent ts) (n : ℕ)
    (us : List String) :
    declarations n [] (ts ++ ";" :: us) = declarations (n + ts.length + 1) [] us := by
  rw [h, declarations_cons (by decide)]

/-- A statement declares at most the name at its root. -/
theorem Reads.declarations_append {ts : List String} {e : Expr} (h : Reads .expression ts e)
    (he : e.buriesDeclaration = false) (n : ℕ) (us : List String) :
    declarations n [] (ts ++ ";" :: us) =
      (e.declared?.toList.map fun x => (none, x)) ++ declarations (n + ts.length + 1) [] us := by
  have htail : "let" ∉ ts.tail := by
    rw [← h.buriesDeclaration_iff, he]
    exact Bool.false_ne_true
  rcases h.expression_cases with ⟨x, rest, value, rfl, rfl, hx, hvalue⟩ | ⟨hdeclared, hhead⟩
  · have hlet : "let" ∉ rest := fun hmem =>
      htail (List.mem_cons_of_mem _ (List.mem_cons_of_mem _ hmem))
    have hsilent := ((hvalue.isSilent hlet).cons (t := "=") (by decide)).cons hx.notMem_scopeTokens
    rw [List.cons_append, declarations, if_pos rfl, hsilent.declarations_append]
    simp only [Expr.declared?, List.length_cons, Option.toList_some, List.map_cons, List.map_nil,
      List.cons_append, List.nil_append, List.head?_nil, List.headD_cons]
    congr 2
    omega
  · rw [let_mem_tail_iff hhead] at htail
    rw [hdeclared]
    exact (h.isSilent htail).declarations_append n us

/-- If no statement has a declaration below its root, then the roots are all the declarations. -/
theorem Statements.declarations_eq {ws : List String} {es : List Expr} (h : Statements ws es)
    (hes : ∀ e ∈ es, e.buriesDeclaration = false) (n : ℕ) :
    declarations n [] ws = (es.filterMap Expr.declared?).map fun x => (none, x) := by
  induction h generalizing n with
  | nil => rfl
  | @cons ts us e es h _ ih =>
    obtain ⟨he, hes⟩ := List.forall_mem_cons.mp hes
    rw [h.declarations_append he, ih hes, ← List.map_append]
    congr 1
    cases hname : e.declared? with
    | none => rw [List.filterMap_cons_none hname]; rfl
    | some x => rw [List.filterMap_cons_some hname]; rfl

/-- **When statements follow the rules for `let`**: if there are no declarations below the roots,
and no two statements declare the same name. -/
theorem Statements.legalLets_iff {ws : List String} {es : List Expr} (h : Statements ws es) :
    LegalLets ws ↔
      (∀ e ∈ es, e.buriesDeclaration = false) ∧ (es.filterMap Expr.declared?).Nodup := by
  have hinjective : Function.Injective fun x : String => ((none : Option ℕ), x) :=
    fun _ _ heq => (Prod.mk.inj heq).2
  constructor
  · rintro ⟨hstarts, hnodup⟩
    have hes := h.isChain_iff.mp hstarts
    rw [h.declarations_eq hes, List.nodup_map_iff hinjective] at hnodup
    exact ⟨hes, hnodup⟩
  · rintro ⟨hes, hnodup⟩
    refine ⟨h.isChain_iff.mpr hes, ?_⟩
    rw [h.declarations_eq hes, List.nodup_map_iff hinjective]
    exact hnodup

end JavaScript

open JavaScript

/-! ### The scripts of programs

The tokens of a script are the statements of its program in normal form, so what was said of
statements can be asked of the tree of the source. -/

/-- Both conditions can be asked of the trees or of their normal forms. -/
theorem Expr.buriesDeclaration_map_norm {es : List Expr} (h : ∀ e ∈ es, e.Fits .statement) :
    ((∀ e ∈ es.map norm, e.buriesDeclaration = false) ↔
        ∀ e ∈ es, e.buriesDeclaration = false) ∧
      (es.map norm).filterMap declared? = es.filterMap declared? := by
  constructor
  · rw [List.forall_mem_map]
    exact forall₂_congr fun e he => by rw [(h e he).buriesDeclaration_norm]
  · rw [List.filterMap_map]
    exact List.filterMap_congr fun e he => (h e he).declared?_norm

/-- The script of a well-formed program, and when it follows the rules for `let`. -/
theorem Expr.exists_tokens_legalLets_iff {es : List Expr} (h : ∀ e ∈ es, e.Fits .statement)
    (hne : es ≠ []) :
    ∃ text ws, toJavaScript (.block es) = .ok text ∧ Tokens text.toList ws ∧
      (LegalLets ws ↔
        (∀ e ∈ es, e.buriesDeclaration = false) ∧ (es.filterMap declared?).Nodup) := by
  obtain ⟨text, htext, ws, fs, hws, hfs, hblock⟩ :=
    WellFormed.isReading (t := .block es) ⟨es, rfl, hne, h⟩
  have hnorm : fs = es.map norm := by
    rw [← normEach_eq_map]
    exact (Expr.block.inj hblock).symm
  obtain ⟨hburies, hdeclared⟩ := buriesDeclaration_map_norm h
  refine ⟨text, ws, htext, hws, ?_⟩
  rw [hfs.legalLets_iff, hnorm, hburies, hdeclared]

/-- **When a script follows the rules for `let`.** It does exactly if every declaration of the
source is a statement of the program and no two statements declare the same name. -/
theorem Mode.legalLets_compile_iff {source : String} {es : List Expr}
    (h : Expr.parse source = .block es) (depth : ℕ) :
    ∃ text ws, run depth compile source = .ok text ∧ Tokens text.toList ws ∧
      (LegalLets ws ↔
        (∀ e ∈ es, e.buriesDeclaration = false) ∧ (es.filterMap Expr.declared?).Nodup) := by
  obtain ⟨hne, hfits⟩ := ((Expr.parse_eq_block_iff source es).mp h).fits
    fun t ht => TokenStream.hasSpelling_of_mem_ofSource ht
  simp only [run, h]
  exact Expr.exists_tokens_legalLets_iff hfits hne

/-- Two declarations, of which the second one uses the first. -/
theorem Mode.legalLets_compile_iff_two :
    Expr.parse "let x = 1\nlet y = - x" =
        .block [.declare "x" (.int 1), .declare "y" (.unary .minus (.var "x"))] ∧
      ∃ ws, Tokens "let x = 1;\nlet y = -x;".toList ws ∧ LegalLets ws := by
  have hint : Expr.Fits .statement (.int 1) :=
    .ofSum (.ofProduct (.ofSigned (.ofPower (.ofApplication (.ofPrimary (.int (by decide)))))))
  have hminus : Expr.Fits .statement (.unary .minus (.var "x")) :=
    .ofSum (.ofProduct (.ofSigned (.sign (.ofPower (.ofApplication (.ofPrimary
      (.var (by decide))))))))
  have hparse := Expr.parse_canonical
    (t := .block [.declare "x" (.int 1), .declare "y" (.unary .minus (.var "x"))])
    ⟨_, rfl, List.cons_ne_nil _ _, List.forall_mem_cons.mpr ⟨.declare (by decide) hint,
      List.forall_mem_singleton.mpr (.declare (by decide) hminus)⟩⟩
  rw [show Expr.canonical (.block [.declare "x" (.int 1),
    .declare "y" (.unary .minus (.var "x"))]) = "let x = 1\nlet y = - x" by cbv] at hparse
  obtain ⟨text, ws, hrun, hws, hlegal⟩ := legalLets_compile_iff hparse 0
  have htext : text = "let x = 1;\nlet y = -x;" := by
    rw [run, hparse] at hrun
    exact (Except.ok.inj hrun).symm
  exact ⟨hparse, ws, htext ▸ hws, hlegal.mpr (by decide)⟩

/-- A well-formed program whose script breaks the rules has a source. -/
theorem Mode.exists_tokens_not_legalLets {es : List Expr} {text : String}
    (hfits : ∀ e ∈ es, e.Fits .statement) (hne : es ≠ [])
    (htext : Expr.toJavaScript (.block es) = .ok text)
    (h : ¬ ((∀ e ∈ es, e.buriesDeclaration = false) ∧ (es.filterMap Expr.declared?).Nodup)) :
    run 0 compile (Expr.canonical (.block es)) = .ok text ∧
      ∃ ws, Tokens text.toList ws ∧ ¬ LegalLets ws := by
  obtain ⟨text', ws, htext', hws, hlegal⟩ := Expr.exists_tokens_legalLets_iff hfits hne
  obtain rfl := Except.ok.inj (htext.symm.trans htext')
  rw [run, Expr.parse_canonical ⟨es, rfl, hne, hfits⟩]
  exact ⟨htext, ws, hws, mt hlegal.mp h⟩

/-- The script of a declaration within a declaration has a `let` behind an equals sign, and that of
a repeated declaration has the same name twice. -/
theorem Mode.not_legalLets_compile :
    (run 0 compile "let a = let b = 4" = .ok "let a = let b = 4;" ∧
      ∃ ws, Tokens "let a = let b = 4;".toList ws ∧ ¬ LegalLets ws) ∧
    run 0 compile "let x = 1\nlet x = 2" = .ok "let x = 1;\nlet x = 2;" ∧
      ∃ ws, Tokens "let x = 1;\nlet x = 2;".toList ws ∧ ¬ LegalLets ws := by
  have hint : ∀ {n : ℤ}, IsLiteral n → Expr.Fits .statement (.int n) := fun hn =>
    .ofSum (.ofProduct (.ofSigned (.ofPower (.ofApplication (.ofPrimary (.int hn))))))
  have hinner : ∀ e ∈ [Expr.declare "a" (.declare "b" (.int 4))], e.Fits .statement :=
    List.forall_mem_singleton.mpr (.declare (by decide) (.declare (by decide) (hint (by decide))))
  have htwice : ∀ e ∈ [Expr.declare "x" (.int 1), .declare "x" (.int 2)], e.Fits .statement :=
    List.forall_mem_cons.mpr ⟨.declare (by decide) (hint (by decide)),
      List.forall_mem_singleton.mpr (.declare (by decide) (hint (by decide)))⟩
  have hburied := exists_tokens_not_legalLets hinner (List.cons_ne_nil _ _) rfl (by decide)
  have hrepeated := exists_tokens_not_legalLets htwice (List.cons_ne_nil _ _) rfl (by decide)
  rw [show Expr.canonical (.block [.declare "a" (.declare "b" (.int 4))]) =
    "let a = let b = 4" by cbv] at hburied
  rw [show Expr.canonical (.block [.declare "x" (.int 1), .declare "x" (.int 2)]) =
    "let x = 1\nlet x = 2" by cbv] at hrepeated
  exact ⟨hburied, hrepeated⟩

end ArrowCalc
