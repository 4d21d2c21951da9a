import ArrowCalc.Proofs.Lexeme.Denotation
import ArrowCalc.Proofs.Preorder
import ArrowCalc.Proofs.Surface

/-!
# Integer literals

An integer literal writes a number in radix ten, eight or sixteen, of any size. The token of a
literal carries exactly this number if it is below `2 ^ 63`. A literal that writes a larger number,
or has no digit, gives one unknown token with all of its characters, and no program has an unknown
token. So the integers of the tree of a source are, from left to right, the numbers that its
literals write.

The way from the literals to the tree has two parts that do not depend on each other. From the
lexemes to the tokens, a literal gives one token wherever it stands (`Cursor.exists_gives`), and the
tokens that carry numbers are those of the literals (`Cursor.literals_tokens`). From the tokens to
the tree, the grammar neither drops nor repeats a token, and each of its rules keeps their order
(`Grammar.Derives.integers_eq`).

## Main definitions

* `Literal.Gives` — the token of a literal
* `Expr.integers` — the integers of a tree, from left to right

## Main results

* `Grammar.Program.integers_eq` — the integers of a program are those that its tokens carry
* `TokenStream.integers_exact` — literals, their tokens and the integers of the tree
-/

namespace ArrowCalc

open Lexeme Pattern Grammar

namespace Literal

/-- The token of a literal at a place. It is as wide as the literal, and carries the number that the
literal writes, or else the whole literal as a text. -/
inductive Gives (cur : Cursor) (w : List Char) : Token → Prop where
  | int {n : ℕ} (h : Writes w n) (hfits : n < 2 ^ 63) :
      Gives cur w ⟨.int, some (.int n), ⟨cur.line, cur.column, cur.column + w.length⟩⟩
  | unknown (h : IsOutOfRange w) :
      Gives cur w ⟨.unknown, some (.text (String.ofList w)),
        ⟨cur.line, cur.column, cur.column + w.length⟩⟩

end Literal

open Literal

/-! ### The tokens of literals -/

theorem Cursor.exists_gives {w : List Char} (h : w ∈ integer) (cur : Cursor) :
    ∃ t, cur.token? ⟨.token .int, w⟩ = some t ∧ Gives cur w t := by
  have htoken : cur.token? ⟨.token .int, w⟩ = some ⟨(content ⟨.token .int, w⟩).1,
      (content ⟨.token .int, w⟩).2, ⟨cur.line, cur.column, cur.column + w.length⟩⟩ := rfl
  refine ⟨_, htoken, ?_⟩
  cases hint : Literal.int? w with
  | some n =>
    have hcontent : content ⟨.token .int, w⟩ = (.int, some (.int n)) := by
      simp only [content, hint]
    obtain ⟨hvalue, hfits⟩ := (int?_eq_some_iff h).mp hint
    rw [hcontent]
    exact .int hvalue hfits
  | none =>
    have hcontent : content ⟨.token .int, w⟩ = (.unknown, some (.text (String.ofList w))) := by
      simp only [content, hint]
    rw [hcontent]
    exact .unknown ((int?_eq_none_iff h).mp hint)

/-! ### The integers of phrases -/

namespace Expr

/-- The value of an integer. -/
def int? : Expr → Option ℤ
  | int value => some value
  | _ => none

/-- The integers of a tree, from left to right. -/
def integers (e : Expr) : List ℤ := e.preorder.filterMap int?

theorem integers_eq (e : Expr) : e.integers = e.int?.toList ++ e.children.flatMap integers := by
  rw [integers, preorder_eq, List.filterMap_cons, List.filterMap_flatMap]
  cases e.int? <;> rfl

theorem mem_integers_iff {e : Expr} {value : ℤ} : value ∈ e.integers ↔ .int value ∈ e.preorder := by
  rw [integers, List.mem_filterMap]
  constructor
  · rintro ⟨node, hnode, hvalue⟩
    cases node with
    | int v =>
      cases hvalue
      exact hnode
    | _ => cases hvalue
  · exact fun h => ⟨_, h, rfl⟩

end Expr

/-- The number that a token carries, if it is an integer. -/
def Token.literal? (t : Token) : Option ℤ := if t.kind = .int then t.int? else none

namespace Grammar

/-- The numbers that tokens carry. -/
def literals (ts : List Token) : List ℤ := ts.filterMap Token.literal?

@[simp] theorem literals_nil : literals [] = [] := rfl

@[simp] theorem literals_append (ts us : List Token) :
    literals (ts ++ us) = literals ts ++ literals us := List.filterMap_append

theorem literals_cons {t : Token} {kind : TokenKind} (h : t.kind = kind) (hne : kind ≠ .int)
    (ts : List Token) : literals (t :: ts) = literals ts :=
  List.filterMap_cons_none (if_neg (h ▸ hne))

theorem literals_eq_nil {ts : List Token} (h : ∀ t ∈ ts, t.kind ≠ .int) : literals ts = [] :=
  List.filterMap_eq_nil_iff.mpr fun t ht => if_neg (h t ht)

theorem Joined.literals_eq {pieces : List (List Token)} {ts : List Token} (h : Joined pieces ts) :
    literals ts = pieces.flatMap literals := by
  induction h with
  | nil => rfl
  | single piece => simp
  | cons piece hcomma _ ih =>
    rw [literals_append, literals_cons hcomma (by decide), ih, List.flatMap_cons]
    rfl

theorem IsName.literals_eq {ts : List Token} {name : String} (h : IsName ts name) :
    literals ts = [] := by
  obtain ⟨t, rfl, hkind, -⟩ := h
  exact literals_cons hkind (by decide) []

theorem Dialect.literals_opening {d : Dialect} {opening : List Token}
    (h : opening.map Token.kind = d.opening) : literals opening = [] := by
  refine literals_eq_nil fun t ht hkind => ?_
  have hmem : t.kind ∈ d.opening := h ▸ List.mem_map_of_mem ht
  rw [hkind] at hmem
  cases d <;> exact absurd hmem (by decide)

/-- The integers of a phrase are those that its tokens carry. -/
theorem Derives.integers_eq {d : Dialect} {layer : Layer} {ts : List Token} {e : Expr}
    (h : Derives d layer ts e) : e.integers = literals ts := by
  induction h with
  | @func opening list body params close arrow e hopen hparams hlist hclose harrow _ ih =>
    -- parameters are names, so there is no literal in front of the body
    have hnames : literals list = [] := by
      rw [hlist.literals_eq, List.flatMap_map, List.flatMap_eq_nil_iff]
      exact fun p hp => (hparams p hp).literals_eq
    rw [Expr.integers_eq, literals_append, literals_append, Dialect.literals_opening hopen, hnames,
      literals_cons hclose (by decide), literals_cons harrow (by decide), ← ih]
    simp [Expr.int?, Expr.children]
  | declare hkw hname hassign _ ih =>
    rw [Expr.integers_eq, literals_cons hkw (by decide), literals_append, hname.literals_eq,
      literals_cons hassign (by decide), ← ih]
    simp [Expr.int?, Expr.children]
  | sum _ hop _ ihleft ihright =>
    rw [Expr.integers_eq, literals_append, literals_cons rfl, ← ihleft, ← ihright]
    · simp [Expr.int?, Expr.children]
    · rcases sumOp?_eq_some hop with hk | hk <;> rw [hk] <;> decide
  | product _ hop _ ihleft ihright =>
    rw [Expr.integers_eq, literals_append, literals_cons rfl, ← ihleft, ← ihright]
    · simp [Expr.int?, Expr.children]
    · rcases productOp?_eq_some hop with hk | hk <;> rw [hk] <;> decide
  | sign hop _ ih =>
    rw [Expr.integers_eq, literals_cons rfl, ← ih]
    · simp [Expr.int?, Expr.children]
    · rcases sign?_eq_some hop with hk | hk <;> rw [hk] <;> decide
  | power _ hop _ ihbase ihexponent =>
    rw [Expr.integers_eq, literals_append, literals_cons hop (by decide), ← ihbase, ← ihexponent]
    simp [Expr.int?, Expr.children]
  | @call ts list opening close callee args _ hopen _ hlist hclose ihcallee ihargs =>
    have hargs : literals list = (args.map Prod.snd).flatMap Expr.integers := by
      rw [hlist.literals_eq, List.flatMap_map, List.flatMap_map]
      exact List.flatMap_congr fun a ha => (ihargs a ha).symm
    rw [Expr.integers_eq, literals_append, literals_cons hopen (by decide), literals_append, hargs,
      literals_cons hclose (by decide), ← ihcallee]
    simp [Expr.int?, Expr.children]
  | var hname =>
    rw [Expr.integers_eq, hname.literals_eq]
    rfl
  | int hvalue =>
    obtain ⟨t, rfl, hkind, hint⟩ := hvalue
    have hliteral : t.literal? = some _ := (if_pos hkind).trans hint
    rw [Expr.integers_eq, literals, List.filterMap_cons_some hliteral]
    rfl
  | paren hopen _ hclose ih =>
    rw [Expr.integers_eq, literals_cons hopen (by decide), literals_append,
      literals_cons hclose (by decide), ← ih]
    simp [Expr.int?, Expr.children]
  | ofSum _ ih | ofProduct _ ih | ofSigned _ ih | ofPower _ ih | ofApplication _ ih
  | ofPrimary _ ih => exact ih

/-- The integers of a program are those that its tokens carry. -/
theorem Program.integers_eq {d : Dialect} {ts : List Token} {es : List Expr}
    (h : Program d ts es) : (Expr.block es).integers = literals ts := by
  have hbreaks : ∀ {breaks}, LineBreaks breaks → literals breaks = [] := fun hbreaks =>
    literals_eq_nil fun t ht => by rw [hbreaks t ht]; decide
  have hblock : ∀ es, (Expr.block es).integers = es.flatMap Expr.integers := fun es =>
    Expr.integers_eq (.block es)
  rw [hblock]
  induction h with
  | last hstatement hlines =>
    rw [List.flatMap_singleton, hstatement.integers_eq, literals_append, hbreaks hlines,
      List.append_nil]
  | cons hstatement _ hlines _ ih =>
    rw [List.flatMap_cons, hstatement.integers_eq, ih, literals_append, literals_append,
      hbreaks hlines, List.nil_append]

theorem Program.kind_ne_unknown {d : Dialect} {ts : List Token} {es : List Expr}
    (h : Program d ts es) : ∀ t ∈ ts, t.kind ≠ .unknown := by
  intro t ht hunknown
  have hmem := h.kind_mem t ht
  rw [hunknown] at hmem
  cases d <;> exact absurd hmem (by decide)

end Grammar

/-! ### The literals of a source -/

/-- The integer literals among lexemes. -/
def Lexeme.integersOf (xs : List Lexeme) : List Lexeme := xs.filter (·.cls = .token .int)

/-- The integer is the number that the literal writes, and below the bound. -/
def Lexeme.HasInteger (value : ℤ) (x : Lexeme) : Prop :=
  ∃ n : ℕ, Writes x.text n ∧ n < 2 ^ 63 ∧ value = n

theorem Lexeme.HasInteger.bounds {value : ℤ} {x : Lexeme} (h : HasInteger value x) :
    0 ≤ value ∧ value < 2 ^ 63 := by
  obtain ⟨n, -, hfits, rfl⟩ := h
  exact ⟨Int.natCast_nonneg n, by exact_mod_cast hfits⟩

/-- Where no token is unknown, the numbers that the tokens carry are, one for one, those that the
literals write. -/
theorem Cursor.literals_tokens {xs : List Lexeme} (hxs : ∀ x ∈ xs, x.IsGenuine) (cur : Cursor)
    (h : ∀ t ∈ cur.tokens xs, t.kind ≠ .unknown) :
    List.Forall₂ HasInteger (literals (cur.tokens xs)) (integersOf xs) := by
  induction xs generalizing cur with
  | nil => exact .nil
  | cons x xs ih =>
    obtain ⟨hx, hxs⟩ := List.forall_mem_cons.mp hxs
    rw [tokens_cons] at h ⊢
    obtain ⟨hfirst, hrest⟩ := List.forall_mem_append.mp h
    have ih := ih hxs (cur.advance x) hrest
    by_cases hcls : x.cls = .token .int
    · obtain ⟨cls, w⟩ := x
      obtain rfl : cls = .token .int := hcls
      obtain ⟨t, htoken, hgives⟩ := cur.exists_gives hx.mem_pattern
      rw [htoken] at hfirst ⊢
      cases hgives with
      | int hwrites hfits => exact .cons ⟨_, hwrites, hfits, rfl⟩ ih
      | unknown _ => exact absurd rfl (hfirst _ List.mem_cons_self)
    · have hnone : literals (cur.token? x).toList = [] := by
        refine literals_eq_nil fun t ht hkind => hcls ?_
        rw [← hkind]
        exact cls_of_token? (Option.mem_toList.mp ht) (by rw [hkind]; decide)
      rw [integersOf, List.filter_cons_of_neg (by simpa using hcls), literals_append, hnone]
      exact ih

namespace TokenStream

/-- A literal of a source gives one token, between those of the text on its two sides. -/
theorem exists_gives_of_cut {source : String} {before after : List Lexeme} {x : Lexeme}
    (h : cut source.toList = before ++ x :: after) (hcls : x.cls = .token .int) :
    x.text ∈ integer ∧ ∃ t, Gives (Cursor.start.advanceAll before) x.text t ∧
      (ofSource source).tokens = Cursor.start.tokens before ++
        t :: (Cursor.start.advanceAll (before ++ [x])).tokens after := by
  have hx : x.IsGenuine := by
    have hlexes : Lexes source.toList (before ++ x :: after) := lexes_iff.mpr h.symm
    exact hlexes.isGenuine x (List.mem_append_right _ List.mem_cons_self)
  obtain ⟨cls, w⟩ := x
  obtain rfl : cls = .token .int := hcls
  obtain ⟨t, htoken, hgives⟩ := (Cursor.start.advanceAll before).exists_gives hx.mem_pattern
  refine ⟨hx.mem_pattern, t, hgives, ?_⟩
  show Cursor.start.tokens (cut source.toList) = _
  rw [h, Cursor.tokens_append, Cursor.tokens_cons, htoken, Cursor.advanceAll, Cursor.advanceAll,
    List.foldl_append]
  rfl

theorem exists_malformed_of_isOutOfRange {source : String} {x : Lexeme}
    (hx : x ∈ cut source.toList) (hcls : x.cls = .token .int) (hrange : IsOutOfRange x.text) :
    ∃ message, Expr.parse source = .malformed message := by
  rcases readProgram_cases (ofSource source).marked with ⟨es, -, hblock⟩ | hmalformed
  · obtain ⟨before, after, hcut⟩ := List.append_of_mem hx
    obtain ⟨-, t, hgives, htokens⟩ := exists_gives_of_cut hcut hcls
    have hknown := ((Expr.parse_eq_block_iff source es).mp hblock).kind_ne_unknown t
      (by rw [htokens]; exact List.mem_append_right _ List.mem_cons_self)
    cases hgives with
    | int hwrites hfits => exact absurd (hrange _ hwrites) (Nat.not_le_of_lt hfits)
    | unknown _ => exact absurd rfl hknown
  · exact hmalformed

/-- The integers of a program are the numbers that its literals write. -/
theorem hasInteger_of_parse {source : String} {es : List Expr}
    (h : Expr.parse source = .block es) :
    List.Forall₂ HasInteger (Expr.parse source).integers (integersOf (cut source.toList)) := by
  have hprogram := (Expr.parse_eq_block_iff source es).mp h
  rw [h, hprogram.integers_eq]
  exact Cursor.literals_tokens (lexes_iff.mpr rfl).isGenuine .start hprogram.kind_ne_unknown

/-- **Integer literals.** Wherever a source has an integer literal, the literal gives one token as
wide as its text: an integer with the number that the literal writes, if this is below `2 ^ 63`, and
otherwise an unknown token with the text of the literal. The integers of the tree of a source are
not negative and below `2 ^ 63`, and if the source is a program, they are one for one the numbers
that its literals write. A source with a literal that writes no number below `2 ^ 63` is no
program. -/
theorem integers_exact (source : String) :
    (∀ before x after, cut source.toList = before ++ x :: after → x.cls = .token .int →
      x.text ∈ integer ∧ ∃ t, Gives (Cursor.start.advanceAll before) x.text t ∧
        (ofSource source).tokens = Cursor.start.tokens before ++
          t :: (Cursor.start.advanceAll (before ++ [x])).tokens after) ∧
      (∀ value, .int value ∈ (Expr.parse source).preorder → 0 ≤ value ∧ value < 2 ^ 63) ∧
      (∀ es, Expr.parse source = .block es →
        List.Forall₂ HasInteger (Expr.parse source).integers (integersOf (cut source.toList))) ∧
      ∀ x ∈ cut source.toList, x.cls = .token .int → IsOutOfRange x.text →
        ∃ message, Expr.parse source = .malformed message := by
  refine ⟨fun _ _ _ => exists_gives_of_cut, fun value hvalue => ?_, fun _ => hasInteger_of_parse,
    fun _ => exists_malformed_of_isOutOfRange⟩
  rcases readProgram_cases (ofSource source).marked with ⟨es, -, hblock⟩ | ⟨message, hmalformed⟩
  · have hbounds := (hasInteger_of_parse hblock).imp fun value x h => And.intro h.bounds h
    exact ((List.forall₂_and_left _ _).mp hbounds).1 value (Expr.mem_integers_iff.mpr hvalue)
  · have hparse : Expr.parse source = .malformed message := hmalformed
    rw [hparse, Expr.preorder_eq] at hvalue
    cases hvalue with
    | tail _ h => cases h

end TokenStream

end ArrowCalc
