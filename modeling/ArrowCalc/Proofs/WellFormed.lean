import ArrowCalc.Proofs.Surface

/-!
# The trees of programs

A tree that comes from a source has the layers of the grammar: below a product there are no sums,
and declarations and function literals stand only where a whole statement may stand. Its names are
spelled like names, and its integers are below `2 ^ 63`, since the lexer has seen to it.

`Expr.Fits` says which trees can stand for the phrases of a layer. It speaks of trees alone, and has
one rule for each rule of the grammar.

The relation forgets the tokens. What is proved about the texts that are written for the trees of
sources is proved from it, without going back to where the trees came from.

## Main definitions

* `IsIdentifier`, `IsLiteral` — what names and integer literals can be
* `Expr.Fits`, `Expr.WellFormed` — the trees of phrases and of programs

## Main results

* `TokenStream.hasSpelling_of_mem_ofSource` — the payloads of the tokens of a source
* `Expr.wellFormed_of_parse` — the tree of a source is well-formed unless it is malformed
-/

namespace ArrowCalc

open Grammar ArrowCalc.Parser

/-! ### Names and integers

What a name is, is stated without the lexer, since it is needed for the texts that are written too.
The lexer reads the longest run of letters and digits, and looks it up among the keywords. -/

/-- The words that are not names. -/
def reserved : List String :=
  ["if", "else", "break", "continue", "while", "let", "return", "true", "false"]

/-- A name is a letter or an underscore, with letters and digits behind it, and is not reserved. -/
def IsIdentifier (name : String) : Prop :=
  name.toList.head?.any Lexeme.isLetter ∧ name.toList.tail.all Char.isAlphanum ∧ name ∉ reserved

instance (name : String) : Decidable (IsIdentifier name) := inferInstanceAs (Decidable (_ ∧ _))

/-- The values of integer literals. -/
def IsLiteral (value : ℤ) : Prop := 0 ≤ value ∧ value < 2 ^ 63

instance (value : ℤ) : Decidable (IsLiteral value) := inferInstanceAs (Decidable (_ ∧ _))

namespace Lexeme

/-- The words that the lexer takes for keywords are the reserved ones. -/
theorem lookup_keywords_eq_none_iff {word : List Char} :
    keywords.lookup word = none ↔ String.ofList word ∉ reserved := by
  have hreserved : reserved = keywords.map fun entry => String.ofList entry.1 := by decide
  rw [List.lookup_eq_none_iff, hreserved, List.mem_map]
  constructor
  · rintro h ⟨entry, hentry, heq⟩
    have hne := h entry hentry
    rw [String.ofList_injective heq] at hne
    simp at hne
  · intro h entry hentry
    refine bne_iff_ne.mpr ?_
    rintro rfl
    exact h ⟨entry, hentry, rfl⟩

theorem take_runLength (p : Char → Bool) (cs : List Char) :
    cs.take (runLength p cs) = cs.takeWhile p :=
  (List.prefix_iff_eq_take.mp (List.takeWhile_prefix p)).symm

/-- A letter begins a word, which goes on as long as letters and digits follow. -/
theorem scan_of_letter {c : Char} (h : isLetter c) (rest : List Char) :
    scan c rest = (.token ((keywords.lookup (c :: rest.takeWhile Char.isAlphanum)).getD .ident),
      runLength Char.isAlphanum rest) := by
  have hblank : ¬ isBlank c := by
    simp only [isBlank, decide_eq_true_eq]
    rintro (rfl | rfl | rfl) <;> exact absurd h (by decide)
  rw [scan, if_neg hblank, if_pos h, ← take_runLength]

/-- Only a letter begins an identifier. -/
theorem isLetter_of_scan {c : Char} {rest : List Char} (h : (scan c rest).1 = .token .ident) :
    isLetter c := by
  by_contra hletter
  rw [scan, if_neg hletter] at h
  split at h
  · cases h
  split at h
  · injection h with h
    split at h <;> cases h
  split at h
  · cases h
  split at h
  · next kind n hsymbol =>
    injection h with h
    exact of_symbol? (P := (· ≠ .ident)) (by decide) hsymbol h
  · cases h

/-- A lexeme that is an identifier is spelled like a name. -/
theorem isIdentifier_of_scan {c : Char} {rest : List Char} (h : (scan c rest).1 = .token .ident) :
    IsIdentifier (String.ofList (c :: rest.take (scan c rest).2)) := by
  have hletter := isLetter_of_scan h
  rw [scan_of_letter hletter] at h ⊢
  rw [take_runLength]
  refine ⟨?_, ?_, lookup_keywords_eq_none_iff.mp ?_⟩
  · rw [String.toList_ofList]
    exact hletter
  · rw [String.toList_ofList]
    exact List.all_takeWhile
  · cases hlookup : keywords.lookup (c :: rest.takeWhile Char.isAlphanum) with
    | none => rfl
    | some kind =>
      rw [hlookup] at h
      injection h with h
      exact absurd h (of_lookup (P := (· ≠ .ident)) (by decide) hlookup)

end Lexeme

theorem Literal.lt_of_bounded? {radix value : ℕ} {digits : List Char}
    (h : bounded? radix digits = some value) : value < intBound := by
  rw [bounded?] at h
  split at h
  · next hbound =>
    cases h
    exact hbound.2
  · cases h

/-- A literal that is too large has no value. -/
theorem Literal.lt_of_int? {text : List Char} {value : ℕ} (h : int? text = some value) :
    value < intBound := by
  rw [int?.eq_def] at h
  split at h
  · split at h <;> exact lt_of_bounded? h
  · exact lt_of_bounded? h

/-! ### The payloads of a source

A token may carry any payload. Those of a source carry only what can be spelled. -/

/-- What a token is, without its place. -/
def Token.content (t : Token) : TokenKind × Option Payload := (t.kind, t.payload)

/-- What an identifier or an integer literal carries can be written in a source. -/
structure Token.HasSpelling (t : Token) : Prop where
  name : ∀ name, t.kind = .ident → t.name? = some name → IsIdentifier name
  int : ∀ value, t.kind = .int → t.int? = some value → IsLiteral value

theorem Token.payload_of_name? {t : Token} {name : String} (h : t.name? = some name) :
    t.payload = some (.text name) := by
  rw [name?] at h
  split at h
  · next hpayload =>
    cases h
    exact hpayload
  · cases h

theorem Token.payload_of_int? {t : Token} {value : ℤ} (h : t.int? = some value) :
    t.payload = some (.int value) := by
  rw [int?] at h
  split at h
  · next hpayload =>
    cases h
    exact hpayload
  · cases h

/-- The token of a lexeme says what the lexeme is. -/
theorem Cursor.content_of_token? {place : Cursor} {x : Lexeme} {t : Token}
    (h : place.token? x = some t) : t.content = x.content := by
  rw [token?] at h
  split at h
  · cases h
  · next hcls =>
    split at h
    · cases h
      rw [Lexeme.content, hcls]
      rfl
    · cases h
  · cases h
    rfl

namespace Lexeme

/-- A lexeme of a text that is an identifier carries a name. -/
theorem isIdentifier_of_content {x : Lexeme} {cs : List Char} (hx : x ∈ cut cs) {name : String}
    (h : x.content = (.ident, some (.text name))) : IsIdentifier name := by
  obtain ⟨c, rest, rfl⟩ := exists_scan_of_mem_cut hx
  rw [content] at h
  split at h
  · split at h <;> cases h
  · cases h
  · cases h
  · next hcls =>
    cases h
    exact isIdentifier_of_scan hcls
  all_goals cases h

/-- A lexeme that is an integer carries one that is not too large. -/
theorem isLiteral_of_content {x : Lexeme} {value : ℤ} (h : x.content = (.int, some (.int value))) :
    IsLiteral value := by
  rw [content] at h
  split at h
  · split at h
    · next n hn =>
      cases h
      have hlt : n < 9223372036854775808 := Literal.lt_of_int? hn
      exact ⟨Int.natCast_nonneg n, by omega⟩
    · cases h
  all_goals cases h

end Lexeme

/-- **The payloads of a source.** Its identifiers carry names and its integers are bounded. -/
theorem TokenStream.hasSpelling_of_mem_ofSource {source : String} {t : Token}
    (h : t ∈ (ofSource source).tokens) : t.HasSpelling := by
  obtain ⟨x, hx, place, ht⟩ := exists_lexeme_of_mem_ofSource h
  have hcontent := Cursor.content_of_token? ht
  constructor
  · intro name hkind hname
    refine Lexeme.isIdentifier_of_content hx ?_
    rw [← hcontent, Token.content, hkind, Token.payload_of_name? hname]
  · intro value hkind hvalue
    refine Lexeme.isLiteral_of_content (x := x) ?_
    rw [← hcontent, Token.content, hkind, Token.payload_of_int? hvalue]

/-! ### The trees of phrases

The rules `ofSum`, `ofProduct` and so on say that a tree of a tighter layer fits a looser one. -/

/-- The tree can stand where the grammar has a phrase of the layer. -/
inductive Expr.Fits : Layer → Expr → Prop where
  | func {params : List String} {body : Expr} (hparams : ∀ x ∈ params, IsIdentifier x)
      (hbody : Fits .statement body) : Fits .statement (.func params body)
  | declare {name : String} {value : Expr} (hname : IsIdentifier name)
      (hvalue : Fits .statement value) : Fits .statement (.declare name value)
  | ofSum {e : Expr} (h : Fits .sum e) : Fits .statement e
  | sum {op : BinaryOp} {left right : Expr} (hop : op = .add ∨ op = .sub) (hleft : Fits .sum left)
      (hright : Fits .product right) : Fits .sum (.binary op left right)
  | ofProduct {e : Expr} (h : Fits .product e) : Fits .sum e
  | product {op : BinaryOp} {left right : Expr} (hop : op = .mul ∨ op = .div)
      (hleft : Fits .product left) (hright : Fits .signed right) :
      Fits .product (.binary op left right)
  | ofSigned {e : Expr} (h : Fits .signed e) : Fits .product e
  | sign {op : UnaryOp} {e : Expr} (h : Fits .signed e) : Fits .signed (.unary op e)
  | ofPower {e : Expr} (h : Fits .power e) : Fits .signed e
  | power {base exponent : Expr} (hbase : Fits .application base)
      (hexponent : Fits .signed exponent) : Fits .power (.binary .pow base exponent)
  | ofApplication {e : Expr} (h : Fits .application e) : Fits .power e
  | call {callee : Expr} {args : List Expr} (hcallee : Fits .primary callee)
      (hargs : ∀ e ∈ args, Fits .statement e) : Fits .application (.call callee args)
  | ofPrimary {e : Expr} (h : Fits .primary e) : Fits .application e
  | var {name : String} (h : IsIdentifier name) : Fits .primary (.var name)
  | int {value : ℤ} (h : IsLiteral value) : Fits .primary (.int value)
  | paren {e : Expr} (h : Fits .statement e) : Fits .primary (.paren e)

/-- A well-formed tree is a block of at least one statement. -/
def Expr.WellFormed (t : Expr) : Prop :=
  ∃ es, t = .block es ∧ es ≠ [] ∧ ∀ e ∈ es, Fits .statement e

/-! ### The trees that the grammar gives -/

namespace Grammar

theorem IsName.isIdentifier {ts : List Token} {name : String} (h : IsName ts name)
    (hts : ∀ t ∈ ts, t.HasSpelling) : IsIdentifier name := by
  obtain ⟨t, rfl, hkind, hname⟩ := h
  exact (hts t List.mem_cons_self).name name hkind hname

theorem sumOp?_eq_some_or {kind : TokenKind} {op : BinaryOp} (h : sumOp? kind = some op) :
    op = .add ∨ op = .sub := by
  rcases sumOp?_eq_some h with rfl | rfl <;> cases h
  · exact .inl rfl
  · exact .inr rfl

theorem productOp?_eq_some_or {kind : TokenKind} {op : BinaryOp} (h : productOp? kind = some op) :
    op = .mul ∨ op = .div := by
  rcases productOp?_eq_some h with rfl | rfl <;> cases h
  · exact .inl rfl
  · exact .inr rfl

theorem Joined.mem {pieces : List (List Token)} {ts : List Token} (h : Joined pieces ts) :
    ∀ piece ∈ pieces, ∀ t ∈ piece, t ∈ ts := by
  induction h with
  | nil => exact fun piece hpiece => absurd hpiece List.not_mem_nil
  | single piece => exact List.forall_mem_singleton.mpr fun t ht => ht
  | cons piece hcomma hrest ih =>
    refine List.forall_mem_cons.mpr ⟨fun t ht => List.mem_append_left _ ht, ?_⟩
    intro p hp t ht
    exact List.mem_append_right _ (List.mem_cons_of_mem _ (ih p hp t ht))

/-- The tree of a phrase fits the layer of the phrase. -/
theorem Derives.fits {d : Dialect} {layer : Layer} {ts : List Token} {e : Expr}
    (h : Derives d layer ts e) (hts : ∀ t ∈ ts, t.HasSpelling) : e.Fits layer := by
  induction h with
  | @func opening list body params close arrow e _ hparams hlist _ _ _ ih =>
    simp only [List.forall_mem_append, List.forall_mem_cons] at hts
    refine .func ?_ (ih hts.2.2.2)
    refine List.forall_mem_map.mpr fun p hp => (hparams p hp).isIdentifier fun t ht => ?_
    exact hts.1.2 t (hlist.mem p.1 (List.mem_map_of_mem hp) t ht)
  | declare _ hname _ _ ih =>
    simp only [List.forall_mem_append, List.forall_mem_cons] at hts
    exact .declare (hname.isIdentifier hts.2.1) (ih hts.2.2.2)
  | sum _ hop _ ihleft ihright =>
    simp only [List.forall_mem_append, List.forall_mem_cons] at hts
    exact .sum (sumOp?_eq_some_or hop) (ihleft hts.1) (ihright hts.2.2)
  | product _ hop _ ihleft ihright =>
    simp only [List.forall_mem_append, List.forall_mem_cons] at hts
    exact .product (productOp?_eq_some_or hop) (ihleft hts.1) (ihright hts.2.2)
  | sign _ _ ih => exact .sign (ih (List.forall_mem_cons.mp hts).2)
  | power _ _ _ ihbase ihexponent =>
    simp only [List.forall_mem_append, List.forall_mem_cons] at hts
    exact .power (ihbase hts.1) (ihexponent hts.2.2)
  | @call ts list opening close callee args _ _ _ hlist _ ihcallee ihargs =>
    simp only [List.forall_mem_append, List.forall_mem_cons] at hts
    refine .call (ihcallee hts.1) (List.forall_mem_map.mpr fun a ha => ihargs a ha fun t ht => ?_)
    exact hts.2.2.1 t (hlist.mem a.1 (List.mem_map_of_mem ha) t ht)
  | var hname => exact .var (hname.isIdentifier hts)
  | int hvalue =>
    obtain ⟨t, rfl, hkind, hint⟩ := hvalue
    exact .int ((hts t List.mem_cons_self).int _ hkind hint)
  | paren _ _ _ ih =>
    simp only [List.forall_mem_append, List.forall_mem_cons] at hts
    exact .paren (ih hts.2.1)
  | ofSum _ ih => exact .ofSum (ih hts)
  | ofProduct _ ih => exact .ofProduct (ih hts)
  | ofSigned _ ih => exact .ofSigned (ih hts)
  | ofPower _ ih => exact .ofPower (ih hts)
  | ofApplication _ ih => exact .ofApplication (ih hts)
  | ofPrimary _ ih => exact .ofPrimary (ih hts)

/-- The statements of a program fit the loosest layer. -/
theorem Program.fits {d : Dialect} {ts : List Token} {es : List Expr} (h : Program d ts es)
    (hts : ∀ t ∈ ts, t.HasSpelling) : es ≠ [] ∧ ∀ e ∈ es, e.Fits .statement := by
  refine ⟨by cases h <;> exact List.cons_ne_nil _ _, ?_⟩
  induction h with
  | last h _ =>
    exact List.forall_mem_singleton.mpr (h.fits (List.forall_mem_append.mp hts).1)
  | cons h _ _ _ ih =>
    simp only [List.forall_mem_append] at hts
    exact List.forall_mem_cons.mpr ⟨h.fits hts.1, ih hts.2.2⟩

end Grammar

/-- The tree of a source is a block exactly if the tokens of the source are a program. -/
theorem Expr.parse_eq_block_iff (source : String) (es : List Expr) :
    Expr.parse source = .block es ↔ Program .plain (TokenStream.ofSource source).tokens es := by
  rw [← Surface.program_source_iff]
  exact TokenStream.readProgram_eq_block_iff _ es

/-- The tree of a source is well-formed, unless there is a syntax error. -/
theorem Expr.wellFormed_of_parse {source : String}
    (h : ∀ message, Expr.parse source ≠ .malformed message) : (Expr.parse source).WellFormed := by
  rcases TokenStream.readProgram_cases (TokenStream.ofSource source).marked with
    ⟨es, -, hes⟩ | ⟨message, hmessage⟩
  · have hprogram := (Expr.parse_eq_block_iff source es).mp hes
    obtain ⟨hne, hfits⟩ := hprogram.fits fun t ht => TokenStream.hasSpelling_of_mem_ofSource ht
    exact ⟨es, hes, hne, hfits⟩
  · exact absurd hmessage (h message)

end ArrowCalc
