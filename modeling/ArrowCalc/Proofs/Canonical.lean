import ArrowCalc.Proofs.WellFormed
import Mathlib.Algebra.Ring.Int.Defs

/-!
# Canonical sources

Every well-formed tree has a canonical source: the words of a statement with one blank between each
two, integers in decimal, and each statement on a line of its own. Reading it gives the tree back.

This closes a gap in what is known about the reader. That its trees are well-formed says nothing
about which well-formed trees it can give, and a reader that gave one tree for all sources would
pass. With the canonical sources the well-formed trees are exactly the trees of sources.

## From the tree to the text and back

The words are lexemes, so the canonical source says what it is to be cut into. Each word is cut off
whole where a blank, a line break or the end of the text follows it (`Lexeme.IsWord`), which is the
reason for the blanks. They are not always needed, and leaving some of them out would take an
argument about every pair of neighbours.

Three facts about the words of a statement carry the proof, each by induction on the layers of the
tree. Every word is one (`Expr.Fits.isWord`), so that the text is cut into them. They close as many
parentheses as they open (`Expr.Fits.sum_nesting`), so that the line break behind a statement is a
token. Their tokens are a phrase of the plain grammar with the tree that was written
(`Expr.Fits.derives`), and the reader reads what is in the grammar.

## Main definitions

* `Expr.words`, `Expr.canonical` — the words of a phrase and the source of a program
* `Lexeme.IsWord` — the lexeme is cut off whole where a word may end

## Main results

* `Lexeme.cut_words` — a line is cut into its words and the blanks between them
* `Expr.Fits.derives` — the tokens of the words are a phrase with the tree
* `Expr.parse_canonical` — reading the canonical source gives the tree back
* `Expr.wellFormed_iff_parse` — the well-formed trees are exactly those that reading gives
-/

namespace ArrowCalc

open Grammar

/-- Pieces with one separator between each two: the first piece, the separator and the others. -/
theorem intercalate_map_cons_cons {α β : Type} (sep : β) (f : α → List β) (a b : α) (as : List α) :
    [sep].intercalate ((a :: b :: as).map f) =
      f a ++ sep :: [sep].intercalate ((b :: as).map f) := by
  rw [List.map_cons, List.map_cons, List.intercalate_cons_cons, List.append_assoc,
    List.singleton_append]

/-- What holds of the separator and of the lists holds of what is made of them. -/
theorem forall_mem_intercalate {α : Type} {P : α → Prop} {sep : List α} {lists : List (List α)}
    (hsep : ∀ x ∈ sep, P x) (h : ∀ list ∈ lists, ∀ x ∈ list, P x) :
    ∀ x ∈ sep.intercalate lists, P x := by
  induction lists with
  | nil => exact fun x hx => absurd hx List.not_mem_nil
  | cons list lists ih =>
    obtain ⟨hlist, hlists⟩ := List.forall_mem_cons.mp h
    cases lists with
    | nil => rwa [List.intercalate_singleton]
    | cons next lists =>
      rw [List.intercalate_cons_cons, List.forall_mem_append, List.forall_mem_append]
      exact ⟨⟨hlist, hsep⟩, ih hlists⟩

/-! ### The words of a tree

A word is written as a lexeme and not as a string, so that its class is part of what is claimed
about it: a name is written to be read as a name, and a reserved word is none. -/

namespace Lexeme

/-- The lexeme of a name. -/
def ofName (name : String) : Lexeme := ⟨.token .ident, name.toList⟩

/-- The lexeme of an integer, in decimal. -/
def ofInt (value : ℤ) : Lexeme := ⟨.token .int, value.repr.toList⟩

/-- The lexeme of an operator between two operands. -/
def ofBinary : BinaryOp → Lexeme
  | .add => ⟨.token .plus, ['+']⟩
  | .sub => ⟨.token .dash, ['-']⟩
  | .mul => ⟨.token .star, ['*']⟩
  | .div => ⟨.token .slash, ['/']⟩
  | .pow => ⟨.token .power, ['*', '*']⟩

/-- The lexeme of an operator in front of its operand. -/
def ofUnary : UnaryOp → Lexeme
  | .plus => ⟨.token .plus, ['+']⟩
  | .minus => ⟨.token .dash, ['-']⟩

def lparen : Lexeme := ⟨.token .lparen, ['(']⟩

def rparen : Lexeme := ⟨.token .rparen, [')']⟩

def comma : Lexeme := ⟨.token .comma, [',']⟩

def arrow : Lexeme := ⟨.token .arrow, ['=', '>']⟩

def assign : Lexeme := ⟨.token .assign, ['=']⟩

def kwLet : Lexeme := ⟨.token .kwLet, ['l', 'e', 't']⟩

/-- The one blank between two words. -/
def gap : Lexeme := ⟨.blank, [' ']⟩

/-- The line break between two statements. -/
def lineBreak : Lexeme := ⟨.token .newline, ['\n']⟩

/-- Lists with a comma between each two. -/
def commaSeparated (lists : List (List Lexeme)) : List Lexeme := [comma].intercalate lists

end Lexeme

open Lexeme

mutual

/-- The words of a phrase. What is no phrase has none. -/
def Expr.words : Expr → List Lexeme
  | .malformed _ | .block _ => []
  | .int value => [ofInt value]
  | .binary op left right => left.words ++ ofBinary op :: right.words
  | .unary op operand => ofUnary op :: operand.words
  | .paren inner => lparen :: (inner.words ++ [rparen])
  | .declare name value => kwLet :: ofName name :: assign :: value.words
  | .var name => [ofName name]
  | .func params body =>
    lparen :: (commaSeparated (params.map fun x => [ofName x]) ++ rparen :: arrow :: body.words)
  | .call callee args =>
    callee.words ++ lparen :: (commaSeparated (Expr.wordsOfEach args) ++ [rparen])

/-- The words of each phrase of a list. -/
def Expr.wordsOfEach : List Expr → List (List Lexeme)
  | [] => []
  | e :: es => e.words :: Expr.wordsOfEach es

end

theorem Expr.wordsOfEach_eq_map (es : List Expr) : wordsOfEach es = es.map words := by
  induction es with
  | nil => rfl
  | cons e es ih => rw [wordsOfEach, ih, List.map_cons]

/-- The words of a statement, with one blank between each two. -/
def Expr.line (e : Expr) : String := " ".intercalate (e.words.map fun w => String.ofList w.text)

/-- The canonical source of a program: the lines of its statements. -/
def Expr.canonical : Expr → String
  | .block es => "\n".intercalate (es.map line)
  | _ => ""

/-! ### Decimal numerals

Integers are written without leading zeros. With one they would be octal, which is the reason why
`Decimal.exists_toDigits_cons` has to be known. -/

/-- The digits of a number have its value. -/
theorem Decimal.ofDigits_toDigits (n : ℕ) : Decimal.ofDigits 10 (Nat.toDigits 10 n) = n := by
  induction n using Nat.strongRecOn with
  | ind n ih =>
    have hdigit : ∀ k < 10, digitValue (Nat.digitChar k) = k := by decide
    by_cases hn : n < 10
    · rw [Nat.toDigits_of_lt_base hn, ← List.nil_append [n.digitChar], ofDigits_concat, hdigit n hn]
      simp
    · rw [Nat.toDigits_of_base_le (by decide) (by omega), ofDigits_concat, ih (n / 10) (by omega),
        hdigit _ (by omega)]
      omega

/-- A decimal numeral has a leading zero only if it is zero. -/
theorem Decimal.exists_toDigits_cons (n : ℕ) :
    ∃ c cs, Nat.toDigits 10 n = c :: cs ∧ (c = '0' → cs = []) ∧ (0 < n → c ≠ '0') := by
  induction n using Nat.strongRecOn with
  | ind n ih =>
    by_cases hn : n < 10
    · refine ⟨n.digitChar, [], Nat.toDigits_of_lt_base hn, fun _ => rfl, ?_⟩
      have hdigit : ∀ k < 10, 0 < k → Nat.digitChar k ≠ '0' := by decide
      exact hdigit n hn
    · obtain ⟨c, cs, htext, -, hpos⟩ := ih (n / 10) (by omega)
      have hc : c ≠ '0' := hpos (by omega)
      refine ⟨c, cs ++ [(n % 10).digitChar], ?_, fun h => absurd h hc, fun _ => hc⟩
      rw [Nat.toDigits_of_base_le (by decide) (by omega), htext, List.cons_append]

/-- A decimal numeral is read in radix ten: it starts with a zero only if it ends with it. -/
theorem Literal.int?_toDigits {n : ℕ} (hn : n < intBound) :
    int? (Nat.toDigits 10 n) = some n := by
  obtain ⟨c, cs, htext, hzero, -⟩ := Decimal.exists_toDigits_cons n
  have hbounded : bounded? 10 (Nat.toDigits 10 n) = some n := by
    rw [bounded?, Decimal.ofDigits_toDigits, if_pos ⟨Nat.toDigits_ne_nil, hn⟩]
  rw [htext] at hbounded ⊢
  rw [int?.eq_def]
  split
  · next d digits heq =>
    injection heq with hc hcs
    rw [hzero hc] at hcs
    cases hcs
  · exact hbounded

theorem Decimal.toList_repr (n : ℕ) : (n : ℤ).repr.toList = Nat.toDigits 10 n :=
  String.toList_ofList

/-! ### Cutting words

The scanner looks at a first character and at what follows. Where a word may end, what follows it is
one of three things, and it is enough to try these. -/

namespace Lexeme

/-- What may stand behind a word: a blank, a line break or the end of the text. -/
def Ends (rest : List Char) : Prop := ∀ c ∈ rest.head?, c = ' ' ∨ c = '\n'

theorem ends_nil : Ends [] := by
  intro c hc
  cases hc

theorem Ends.take_one {rest : List Char} (h : Ends rest) :
    rest.take 1 ∈ [[], [' '], ['\n']] := by
  cases rest with
  | nil => exact List.mem_cons_self
  | cons c rest => rcases h c rfl with rfl | rfl <;> simp

/-- The lexeme is a token other than a line break, and is cut off whole where a word may end. -/
structure IsWord (x : Lexeme) : Prop where
  token : ∃ kind, x.cls = .token kind ∧ kind ≠ .newline
  head : ∃ c cs, x.text = c :: cs ∧ ¬ isBlank c
  cut_append : ∀ rest, Ends rest → cut (x.text ++ rest) = x :: cut rest

/-- A word is what the scanner takes off in front of a place where a word may end. -/
theorem isWord_of_scan {c : Char} {cs : List Char} {kind : TokenKind} (hkind : kind ≠ .newline)
    (h : ∀ rest, Ends rest → scan c (cs ++ rest) = (.token kind, cs.length)) :
    IsWord ⟨.token kind, c :: cs⟩ where
  token := ⟨kind, rfl, hkind⟩
  head := by
    refine ⟨c, cs, rfl, fun hblank => ?_⟩
    have hscan := h [] ends_nil
    rw [scan, if_pos hblank] at hscan
    cases hscan
  cut_append rest hrest := by
    rw [List.cons_append, cut, h rest hrest]
    simp only [List.take_left, List.drop_left]

/-- The characters that begin symbols only. -/
def isPunctuation (c : Char) : Bool := ¬ isBlank c ∧ ¬ isLetter c ∧ ¬ c.isDigit ∧ c ≠ '.'

/-- One character behind its first decides what a symbol is. -/
theorem scan_take_one {c : Char} (h : isPunctuation c) (rest : List Char) :
    scan c (rest.take 1) = scan c rest := by
  obtain ⟨hblank, hletter, hdigit, hdot⟩ := of_decide_eq_true h
  have hsymbol : symbol? c (rest.take 1) = symbol? c rest := by
    rw [symbol?, symbol?, List.take_take]
    rfl
  simp only [scan, if_neg hblank, if_neg hletter, if_neg hdigit, hdot, false_and, if_false, hsymbol]

/-- A symbol of one character. The three things that may follow are tried. -/
theorem isWord_single {c : Char} {kind : TokenKind} (hkind : kind ≠ .newline)
    (hc : isPunctuation c) (h : ∀ after ∈ [[], [' '], ['\n']], scan c after = (.token kind, 0)) :
    IsWord ⟨.token kind, [c]⟩ := by
  refine isWord_of_scan hkind fun rest hrest => ?_
  rw [List.nil_append, ← scan_take_one hc]
  exact h _ hrest.take_one

/-- A symbol of two characters, behind which the scanner does not look. -/
theorem isWord_double {c d : Char} {kind : TokenKind} (hkind : kind ≠ .newline)
    (hc : isPunctuation c) (h : scan c [d] = (.token kind, 1)) :
    IsWord ⟨.token kind, [c, d]⟩ := by
  refine isWord_of_scan hkind fun rest _ => ?_
  rw [← scan_take_one hc]
  exact h

theorem isWord_lparen : IsWord lparen := isWord_single (by decide) (by decide) (by decide)

theorem isWord_rparen : IsWord rparen := isWord_single (by decide) (by decide) (by decide)

theorem isWord_comma : IsWord comma := isWord_single (by decide) (by decide) (by decide)

theorem isWord_assign : IsWord assign := isWord_single (by decide) (by decide) (by decide)

theorem isWord_arrow : IsWord arrow := isWord_double (by decide) (by decide) (by decide)

theorem isWord_ofUnary (op : UnaryOp) : IsWord (ofUnary op) := by
  cases op <;> exact isWord_single (by decide) (by decide) (by decide)

theorem isWord_ofBinary (op : BinaryOp) : IsWord (ofBinary op) := by
  cases op with
  | pow => exact isWord_double (by decide) (by decide) (by decide)
  | add | sub | mul | div => exact isWord_single (by decide) (by decide) (by decide)

/-- A run of characters ends where a word may end. -/
theorem takeWhile_append_of_ends {p : Char → Bool} {cs rest : List Char} (hcs : cs.all p)
    (hrest : Ends rest) (hblank : ¬ p ' ') (hbreak : ¬ p '\n') :
    (cs ++ rest).takeWhile p = cs := by
  have hnil : rest.takeWhile p = [] := by
    cases rest with
    | nil => rfl
    | cons c rest =>
      refine List.takeWhile_cons_of_neg ?_
      rcases hrest c rfl with rfl | rfl <;> assumption
  rw [List.takeWhile_append_of_pos (List.all_eq_true.mp hcs), hnil, List.append_nil]

theorem isWord_of_letter {c : Char} {cs : List Char} (hc : isLetter c)
    (hcs : cs.all Char.isAlphanum) {kind : TokenKind} (hkind : kind ≠ .newline)
    (hlookup : (keywords.lookup (c :: cs)).getD .ident = kind) : IsWord ⟨.token kind, c :: cs⟩ := by
  refine isWord_of_scan hkind fun rest hrest => ?_
  have hrun := takeWhile_append_of_ends hcs hrest (by decide) (by decide)
  rw [scan_of_letter hc, runLength, hrun, hlookup]

theorem isWord_kwLet : IsWord kwLet :=
  isWord_of_letter (by decide) (by decide) (by decide) (by decide)

theorem isWord_ofName {name : String} (h : IsIdentifier name) : IsWord (ofName name) := by
  obtain ⟨hhead, htail, hreserved⟩ := h
  have hlookup : keywords.lookup name.toList = none := by
    rwa [lookup_keywords_eq_none_iff, String.ofList_toList]
  rw [ofName]
  cases hname : name.toList with
  | nil =>
    rw [hname] at hhead
    cases hhead
  | cons c cs =>
    rw [hname] at hhead htail hlookup
    exact isWord_of_letter hhead htail (by decide) (hlookup ▸ rfl)

theorem not_isLetter_of_isDigit {c : Char} (h : c.isDigit) : ¬ isLetter c := by
  have htable : ∀ n < 58, 48 ≤ n → ¬ isLetter (Char.ofNat n) := by decide
  obtain ⟨hlow, hhigh⟩ := Char.isDigit_iff_toNat.mp h
  have hletter := htable c.toNat (Nat.lt_succ_of_le hhigh) hlow
  rwa [Char.ofNat_toNat] at hletter

theorem scan_zero {rest : List Char} (h : Ends rest) : scan '0' rest = (.token .int, 0) := by
  cases rest with
  | nil => rfl
  | cons c rest => rcases h c rfl with rfl | rfl <;> rfl

/-- A decimal numeral is cut off whole. It would become a float in front of a point, which may not
follow a word. -/
theorem scan_numeral {c : Char} {cs rest : List Char} (hc : c.isDigit) (hzero : c ≠ '0')
    (hcs : cs.all Char.isDigit) (h : Ends rest) :
    scan c (cs ++ rest) = (.token .int, cs.length) := by
  have hblank : ¬ isBlank c := by
    simp only [isBlank, decide_eq_true_eq]
    rintro (rfl | rfl | rfl) <;> cases hc
  have hnumber : number c (cs ++ rest) = (.int, cs.length) := by
    have hrun := takeWhile_append_of_ends hcs h (by decide) (by decide)
    simp only [number, if_neg hzero, runLength, hrun, List.drop_left]
    split
    · next fraction =>
      rcases h '.' rfl with h | h <;> exact absurd h (by decide)
    · rfl
  rw [scan, if_neg hblank, if_neg (not_isLetter_of_isDigit hc), if_pos hc, hnumber]

theorem isWord_ofInt {value : ℤ} (h : IsLiteral value) : IsWord (ofInt value) := by
  obtain ⟨n, rfl⟩ := Int.eq_ofNat_of_zero_le h.1
  obtain ⟨c, cs, htext, hzero, -⟩ := Decimal.exists_toDigits_cons n
  have hdigits : (c :: cs).all Char.isDigit := by
    rw [← htext, List.all_eq_true]
    exact fun d hd => Nat.isDigit_of_mem_toDigits (by decide) (by decide) hd
  rw [ofInt, Decimal.toList_repr, htext]
  refine isWord_of_scan (by decide) fun rest hrest => ?_
  rw [List.all_cons, Bool.and_eq_true] at hdigits
  by_cases hc : c = '0'
  · rw [hzero hc, hc]
    exact scan_zero hrest
  · exact scan_numeral hdigits.1 hc hdigits.2 hrest

/-- The first lexeme of a line break is the line break alone. -/
theorem cut_lineBreak (rest : List Char) : cut ('\n' :: rest) = lineBreak :: cut rest := by
  have hscan : scan '\n' rest = (.token .newline, 0) := by
    cases rest <;> rfl
  rw [cut, hscan]
  rfl

/-- Blanks are cut off together, and here there is only one of them. -/
theorem cut_gap {c : Char} (h : ¬ isBlank c) (cs : List Char) :
    cut (' ' :: c :: cs) = gap :: cut (c :: cs) := by
  have hscan : scan ' ' (c :: cs) = (.blank, 0) := by
    rw [scan, if_pos (by decide), runLength, List.takeWhile_cons_of_neg h]
    rfl
  rw [cut, hscan]
  rfl

theorem IsWord.exists_line {w : Lexeme} (h : w.IsWord) (ws : List Lexeme) (rest : List Char) :
    ∃ c cs, [' '].intercalate ((w :: ws).map text) ++ rest = c :: cs ∧ ¬ isBlank c := by
  obtain ⟨c, cs, htext, hblank⟩ := h.head
  cases ws with
  | nil => exact ⟨c, cs ++ rest, by simp [htext], hblank⟩
  | cons w' ws =>
    refine ⟨c, cs ++ ' ' :: [' '].intercalate ((w' :: ws).map text) ++ rest, ?_, hblank⟩
    rw [intercalate_map_cons_cons, htext]
    rfl

/-- A line is cut into its words and the blanks between them. -/
theorem cut_words {ws : List Lexeme} (hws : ∀ w ∈ ws, IsWord w) {rest : List Char}
    (hrest : Ends rest) :
    cut ([' '].intercalate (ws.map text) ++ rest) = ws.intersperse gap ++ cut rest := by
  induction ws with
  | nil => rfl
  | cons w ws ih =>
    obtain ⟨hw, hws⟩ := List.forall_mem_cons.mp hws
    cases ws with
    | nil =>
      rw [List.map_singleton, List.intercalate_singleton]
      exact hw.cut_append rest hrest
    | cons w' ws =>
      obtain ⟨c, cs, hline, hblank⟩ := (hws w' List.mem_cons_self).exists_line ws rest
      have hends : Ends (' ' :: c :: cs) := by
        intro d hd
        exact .inl (Option.some.inj hd).symm
      have ih := ih hws
      rw [hline] at ih
      rw [intercalate_map_cons_cons, List.append_assoc, List.cons_append, hline,
        hw.cut_append _ hends, cut_gap hblank, ih]
      rfl

end Lexeme

/-! ### Reading words

A word gives one token, and a blank none. A line break gives one outside of parentheses only, and
for this the depth has to be followed through the words. -/

namespace Lexeme

/-- By how much a lexeme changes the number of open parentheses. -/
def nesting (x : Lexeme) : ℤ :=
  match x.cls with
  | .token kind => kind.nesting
  | _ => 0

end Lexeme

namespace Cursor

theorem depth_advance (cur : Cursor) (x : Lexeme) :
    (cur.advance x).depth = cur.depth + x.nesting := by
  obtain ⟨_ | _ | _, text⟩ := x
  · next kind => cases kind <;> first | rfl | exact (Int.add_zero _).symm
  · exact (Int.add_zero _).symm
  · exact (Int.add_zero _).symm

theorem depth_advanceAll (cur : Cursor) (xs : List Lexeme) :
    (cur.advanceAll xs).depth = cur.depth + (xs.map nesting).sum := by
  induction xs generalizing cur with
  | nil => exact (Int.add_zero _).symm
  | cons x xs ih =>
    rw [advanceAll, List.foldl_cons, ← advanceAll, ih, depth_advance, List.map_cons, List.sum_cons,
      Int.add_assoc]

theorem token?_of_isWord {x : Lexeme} (h : x.IsWord) (cur : Cursor) :
    ∃ t, cur.token? x = some t ∧ t.content = x.content := by
  obtain ⟨kind, hcls, hkind⟩ := h.token
  cases ht : cur.token? x with
  | some t => exact ⟨t, rfl, content_of_token? ht⟩
  | none =>
    rw [token?] at ht
    split at ht
    · next hblank =>
      rw [hblank] at hcls
      cases hcls
    · next hbreak =>
      rw [hbreak] at hcls
      cases hcls
      exact absurd rfl hkind
    · cases ht

end Cursor

theorem readings_append (cur : Cursor) (xs ys : List Lexeme) :
    readings cur (xs ++ ys) = readings cur xs ++ readings (cur.advanceAll xs) ys := by
  induction xs generalizing cur with
  | nil => rfl
  | cons x xs ih =>
    have hadvance : cur.advanceAll (x :: xs) = (cur.advance x).advanceAll xs := rfl
    rw [List.cons_append, readings, readings, ih, hadvance]
    split <;> rfl

/-- The tokens of a list of lexemes, without their places. -/
def contents (cur : Cursor) (xs : List Lexeme) : List (TokenKind × Option Payload) :=
  (readings cur xs).map fun r => r.token.content

theorem contents_append (cur : Cursor) (xs ys : List Lexeme) :
    contents cur (xs ++ ys) = contents cur xs ++ contents (cur.advanceAll xs) ys := by
  rw [contents, readings_append, List.map_append]
  rfl

theorem contents_cons_word {x : Lexeme} (h : x.IsWord) (cur : Cursor) (xs : List Lexeme) :
    contents cur (x :: xs) = x.content :: contents (cur.advance x) xs := by
  obtain ⟨t, ht, hcontent⟩ := cur.token?_of_isWord h
  rw [contents, readings, ht, List.map_cons, hcontent]
  rfl

theorem contents_words {ws : List Lexeme} (hws : ∀ w ∈ ws, IsWord w) (cur : Cursor) :
    contents cur (ws.intersperse gap) = ws.map content := by
  induction ws generalizing cur with
  | nil => rfl
  | cons w ws ih =>
    obtain ⟨hw, hws⟩ := List.forall_mem_cons.mp hws
    cases ws with
    | nil => exact contents_cons_word hw cur []
    | cons w' ws =>
      rw [List.intersperse_cons_cons, contents_cons_word hw, List.map_cons,
        ← ih hws (cur.advance w)]
      rfl

theorem mem_commaSeparated {P : Lexeme → Prop} (hcomma : P comma) {lists : List (List Lexeme)}
    (h : ∀ list ∈ lists, ∀ x ∈ list, P x) : ∀ x ∈ commaSeparated lists, P x :=
  forall_mem_intercalate (List.forall_mem_singleton.mpr hcomma) h

theorem sum_nesting_commaSeparated {lists : List (List Lexeme)}
    (h : ∀ list ∈ lists, (list.map nesting).sum = 0) :
    ((commaSeparated lists).map nesting).sum = 0 := by
  induction lists with
  | nil => rfl
  | cons list lists ih =>
    obtain ⟨hlist, hlists⟩ := List.forall_mem_cons.mp h
    cases lists with
    | nil => rwa [commaSeparated, List.intercalate_singleton]
    | cons next lists =>
      rw [commaSeparated, List.intercalate_cons_cons, ← commaSeparated, List.map_append,
        List.sum_append, ih hlists, List.map_append, List.sum_append, hlist]
      rfl

namespace Expr

/-- The words of a phrase are words. -/
theorem Fits.isWord {layer : Layer} {e : Expr} (h : e.Fits layer) : ∀ w ∈ e.words, w.IsWord := by
  induction h with
  | @func params body hparams _ ih =>
    have hlist := mem_commaSeparated isWord_comma (List.forall_mem_map.mpr fun x hx =>
      List.forall_mem_singleton.mpr (isWord_ofName (hparams x hx)))
    simp only [words, List.forall_mem_cons, List.forall_mem_append]
    exact ⟨isWord_lparen, hlist, isWord_rparen, isWord_arrow, ih⟩
  | declare hname _ ih =>
    simp only [words, List.forall_mem_cons]
    exact ⟨isWord_kwLet, isWord_ofName hname, isWord_assign, ih⟩
  | @sum op _ _ _ _ _ ihleft ihright | @product op _ _ _ _ _ ihleft ihright =>
    simp only [words, List.forall_mem_append, List.forall_mem_cons]
    exact ⟨ihleft, isWord_ofBinary op, ihright⟩
  | @sign op _ _ ih =>
    simp only [words, List.forall_mem_cons]
    exact ⟨isWord_ofUnary op, ih⟩
  | power _ _ ihbase ihexponent =>
    simp only [words, List.forall_mem_append, List.forall_mem_cons]
    exact ⟨ihbase, isWord_ofBinary .pow, ihexponent⟩
  | @call callee args _ _ ihcallee ihargs =>
    have hlist := mem_commaSeparated isWord_comma (List.forall_mem_map.mpr ihargs)
    simp only [words, wordsOfEach_eq_map, List.forall_mem_append, List.forall_mem_cons]
    exact ⟨ihcallee, isWord_lparen, hlist, isWord_rparen, List.forall_mem_nil _⟩
  | var hname => exact List.forall_mem_singleton.mpr (isWord_ofName hname)
  | int hvalue => exact List.forall_mem_singleton.mpr (isWord_ofInt hvalue)
  | paren _ ih =>
    simp only [words, List.forall_mem_append, List.forall_mem_cons]
    exact ⟨isWord_lparen, ih, isWord_rparen, List.forall_mem_nil _⟩
  | ofSum _ ih | ofProduct _ ih | ofSigned _ ih | ofPower _ ih | ofApplication _ ih
  | ofPrimary _ ih => exact ih

/-- A phrase closes as many parentheses as it opens. The three rules with parentheses, those of
functions, calls and expressions in parentheses, have the same shape. -/
theorem Fits.sum_nesting {layer : Layer} {e : Expr} (h : e.Fits layer) :
    (e.words.map nesting).sum = 0 := by
  have hwrap : ∀ xs ys : List Lexeme, (xs.map nesting).sum = 0 → (ys.map nesting).sum = 0 →
      ((lparen :: (xs ++ rparen :: ys)).map nesting).sum = 0 := by
    intro xs ys hxs hys
    simp [hxs, hys, lparen, rparen, nesting, TokenKind.nesting]
  induction h with
  | @func params body _ _ ih =>
    refine hwrap _ _ (sum_nesting_commaSeparated (List.forall_mem_map.mpr fun _ _ => rfl)) ?_
    rw [List.map_cons, List.sum_cons, ih]
    rfl
  | declare _ _ ih => simpa [words, kwLet, ofName, assign, nesting, TokenKind.nesting] using ih
  | @sum op _ _ hop _ _ ihleft ihright | @product op _ _ hop _ _ ihleft ihright =>
    rcases hop with rfl | rfl <;>
      simp [words, ihleft, ihright, ofBinary, nesting, TokenKind.nesting]
  | @sign op _ _ ih => cases op <;> simpa [words, ofUnary, nesting, TokenKind.nesting] using ih
  | power _ _ ihbase ihexponent =>
    simp [words, ihbase, ihexponent, ofBinary, nesting, TokenKind.nesting]
  | @call callee args _ _ ihcallee ihargs =>
    have hlist := sum_nesting_commaSeparated (List.forall_mem_map.mpr ihargs)
    rw [words, wordsOfEach_eq_map, List.map_append, List.sum_append, ihcallee, hwrap _ _ hlist rfl]
    rfl
  | var | int => rfl
  | paren _ ih => exact hwrap _ _ ih rfl
  | ofSum _ ih | ofProduct _ ih | ofSigned _ ih | ofPower _ ih | ofApplication _ ih
  | ofPrimary _ ih => exact ih

end Expr

/-! ### The tokens of words

The grammar is about tokens, which have places. The places of the tokens of a canonical source are
not worth computing: a list of tokens spells the words if it agrees with them in kinds and payloads.
-/

/-- The tokens are those of the words. -/
def Spells (ts : List Token) (ws : List Lexeme) : Prop :=
  ts.map Token.content = ws.map Lexeme.content

namespace Spells

theorem of_append {ts : List Token} {ws vs : List Lexeme} (h : Spells ts (ws ++ vs)) :
    ∃ us us', ts = us ++ us' ∧ Spells us ws ∧ Spells us' vs := by
  rw [Spells, List.map_append] at h
  obtain ⟨us, us', rfl, hus, hus'⟩ := List.map_eq_append_iff.mp h
  exact ⟨us, us', rfl, hus, hus'⟩

theorem of_cons {ts : List Token} {w : Lexeme} {ws : List Lexeme} (h : Spells ts (w :: ws)) :
    ∃ t us, ts = t :: us ∧ t.content = w.content ∧ Spells us ws := by
  rw [Spells, List.map_cons] at h
  obtain ⟨t, us, rfl, ht, hus⟩ := List.map_eq_cons_iff.mp h
  exact ⟨t, us, rfl, ht, hus⟩

theorem of_nil {ts : List Token} (h : Spells ts []) : ts = [] := List.map_eq_nil_iff.mp h

theorem isName {ts : List Token} {name : String} (h : Spells ts [ofName name]) :
    IsName ts name := by
  obtain ⟨t, us, rfl, ht, hus⟩ := h.of_cons
  rw [hus.of_nil]
  obtain ⟨hkind, hpayload⟩ := Prod.mk.inj ht
  refine ⟨t, rfl, hkind, ?_⟩
  rw [Token.name?, hpayload, ofName, String.ofList_toList]

theorem isInteger {ts : List Token} {value : ℤ} (h : Spells ts [ofInt value])
    (hvalue : IsLiteral value) : IsInteger ts value := by
  obtain ⟨t, us, rfl, ht, hus⟩ := h.of_cons
  rw [hus.of_nil]
  obtain ⟨n, rfl⟩ := Int.eq_ofNat_of_zero_le hvalue.1
  have hlt : n < Literal.intBound := by
    have := hvalue.2
    rw [Literal.intBound]
    omega
  rw [content, ofInt, Decimal.toList_repr, Literal.int?_toDigits hlt] at ht
  obtain ⟨hkind, hpayload⟩ := Prod.mk.inj ht
  refine ⟨t, rfl, hkind, ?_⟩
  rw [Token.int?, hpayload]

/-- The tokens of lists with commas between them are phrases with commas between them. Parameters
and arguments are the two uses. -/
theorem joined {α : Type} {Item : List Token → α → Prop} {spell : α → List Lexeme} {as : List α}
    (hitem : ∀ a ∈ as, ∀ us, Spells us (spell a) → Item us a) {ts : List Token}
    (h : Spells ts (commaSeparated (as.map spell))) :
    ∃ items : List (List Token × α), items.map Prod.snd = as ∧
      Joined (items.map Prod.fst) ts ∧ ∀ item ∈ items, Item item.1 item.2 := by
  induction as generalizing ts with
  | nil =>
    rw [h.of_nil]
    exact ⟨[], rfl, .nil, List.forall_mem_nil _⟩
  | cons a as ih =>
    obtain ⟨ha, has⟩ := List.forall_mem_cons.mp hitem
    cases as with
    | nil =>
      rw [List.map_singleton, commaSeparated, List.intercalate_singleton] at h
      exact ⟨[(ts, a)], rfl, .single ts, List.forall_mem_singleton.mpr (ha ts h)⟩
    | cons b as =>
      rw [commaSeparated, intercalate_map_cons_cons, ← commaSeparated] at h
      obtain ⟨us, vs, rfl, hus, hvs⟩ := h.of_append
      obtain ⟨t, vs, rfl, ht, hvs⟩ := hvs.of_cons
      obtain ⟨items, hsnd, hjoined, hitems⟩ := ih has hvs
      refine ⟨(us, a) :: items, by rw [List.map_cons, hsnd], ?_,
        List.forall_mem_cons.mpr ⟨ha us hus, hitems⟩⟩
      cases items with
      | nil => cases hsnd
      | cons item items => exact .cons us (congrArg Prod.fst ht) hjoined

end Spells

/-- The tokens of the words of a tree are a phrase with the tree. In each case the tokens are taken
apart as the words are put together. -/
theorem Expr.Fits.derives {layer : Layer} {e : Expr} (h : e.Fits layer) {ts : List Token}
    (hts : Spells ts e.words) : Derives .plain layer ts e := by
  induction h generalizing ts with
  | @func params body hparams _ ih =>
    obtain ⟨opening, ts, rfl, hopen, hts⟩ := hts.of_cons
    obtain ⟨list, ts, rfl, hlist, hts⟩ := hts.of_append
    obtain ⟨close, ts, rfl, hclose, hts⟩ := hts.of_cons
    obtain ⟨arrow, body, rfl, harrow, hbody⟩ := hts.of_cons
    -- the names between the parentheses spell the parameters, one token each
    obtain ⟨items, rfl, hjoined, hitems⟩ := hlist.joined (fun _ _ _ => Spells.isName)
    have hopening : [opening].map Token.kind = Dialect.plain.opening :=
      congrArg (fun c => [Prod.fst c]) hopen
    exact .func hopening hitems hjoined (congrArg Prod.fst hclose) (congrArg Prod.fst harrow)
      (ih hbody)
  | declare hname _ ih =>
    obtain ⟨kw, ts, rfl, hkw, hts⟩ := hts.of_cons
    obtain ⟨name, ts, rfl, hident, hts⟩ := hts.of_cons
    obtain ⟨assign, value, rfl, hassign, hvalue⟩ := hts.of_cons
    have hname : Spells [name] [ofName _] := congrArg (fun c => [c]) hident
    exact .declare (congrArg Prod.fst hkw) hname.isName (congrArg Prod.fst hassign) (ih hvalue)
  | @sum op left right hop _ _ ihleft ihright =>
    obtain ⟨ts, us, rfl, hleft, hus⟩ := hts.of_append
    obtain ⟨t, us, rfl, ht, hright⟩ := hus.of_cons
    refine .sum (ihleft hleft) ?_ (ihright hright)
    have hkind : t.kind = (ofBinary op).content.1 := congrArg Prod.fst ht
    rw [hkind]
    rcases hop with rfl | rfl <;> rfl
  | @product op left right hop _ _ ihleft ihright =>
    obtain ⟨ts, us, rfl, hleft, hus⟩ := hts.of_append
    obtain ⟨t, us, rfl, ht, hright⟩ := hus.of_cons
    refine .product (ihleft hleft) ?_ (ihright hright)
    have hkind : t.kind = (ofBinary op).content.1 := congrArg Prod.fst ht
    rw [hkind]
    rcases hop with rfl | rfl <;> rfl
  | @sign op _ _ ih =>
    obtain ⟨t, us, rfl, ht, hus⟩ := hts.of_cons
    refine .sign ?_ (ih hus)
    have hkind : t.kind = (ofUnary op).content.1 := congrArg Prod.fst ht
    rw [hkind]
    cases op <;> rfl
  | power _ _ ihbase ihexponent =>
    obtain ⟨ts, us, rfl, hbase, hus⟩ := hts.of_append
    obtain ⟨t, us, rfl, ht, hexponent⟩ := hus.of_cons
    exact .power (ihbase hbase) (congrArg Prod.fst ht) (ihexponent hexponent)
  | @call callee args _ _ ihcallee ihargs =>
    rw [words, wordsOfEach_eq_map] at hts
    obtain ⟨ts, us, rfl, hcallee, hus⟩ := hts.of_append
    obtain ⟨opening, us, rfl, hopen, hus⟩ := hus.of_cons
    obtain ⟨list, us, rfl, hlist, hus⟩ := hus.of_append
    obtain ⟨close, us, rfl, hclose, hus⟩ := hus.of_cons
    rw [hus.of_nil]
    -- `items` are the tokens of the arguments, cut apart at the commas
    obtain ⟨items, rfl, hjoined, hitems⟩ := hlist.joined (fun a ha _ => ihargs a ha)
    exact .call (ihcallee hcallee) (congrArg Prod.fst hopen) hitems hjoined
      (congrArg Prod.fst hclose)
  | var hname => exact .var hts.isName
  | int hvalue => exact .int (hts.isInteger hvalue)
  | paren _ ih =>
    obtain ⟨opening, us, rfl, hopen, hus⟩ := hts.of_cons
    obtain ⟨inner, us, rfl, hinner, hus⟩ := hus.of_append
    obtain ⟨close, us, rfl, hclose, hus⟩ := hus.of_cons
    rw [hus.of_nil]
    exact .paren (congrArg Prod.fst hopen) (ih hinner) (congrArg Prod.fst hclose)
  | ofSum _ ih => exact .ofSum (ih hts)
  | ofProduct _ ih => exact .ofProduct (ih hts)
  | ofSigned _ ih => exact .ofSigned (ih hts)
  | ofPower _ ih => exact .ofPower (ih hts)
  | ofApplication _ ih => exact .ofApplication (ih hts)
  | ofPrimary _ ih => exact .ofPrimary (ih hts)

/-! ### Programs

The lines are read one after the other. Between two lines the depth is back at zero, which is the
invariant of the induction. -/

theorem Expr.toList_line (e : Expr) : e.line.toList = [' '].intercalate (e.words.map text) := by
  rw [line, String.toList_intercalate, List.map_map]
  congr 1
  exact List.map_congr_left fun _ _ => String.toList_ofList

theorem sum_nesting_intersperse (ws : List Lexeme) :
    ((ws.intersperse gap).map nesting).sum = (ws.map nesting).sum := by
  induction ws with
  | nil => rfl
  | cons w ws ih =>
    cases ws with
    | nil => rfl
    | cons w' ws =>
      have hgap : gap.nesting = 0 := rfl
      rw [List.intersperse_cons_cons, List.map_cons, List.map_cons, List.sum_cons, List.sum_cons,
        ih, hgap, Int.zero_add, ← List.sum_cons, ← List.map_cons]

/-- The tokens of a line, and of the text behind it. -/
theorem contents_line {e : Expr} (h : e.Fits .statement) {cur : Cursor} (hcur : cur.depth = 0)
    {rest : List Char} (hrest : Ends rest) : ∃ after : Cursor, after.depth = 0 ∧
      contents cur (cut (e.line.toList ++ rest)) =
        e.words.map content ++ contents after (cut rest) := by
  refine ⟨cur.advanceAll (e.words.intersperse gap), ?_, ?_⟩
  · rw [Cursor.depth_advanceAll, hcur, sum_nesting_intersperse, h.sum_nesting, Int.zero_add]
  · rw [e.toList_line, cut_words h.isWord hrest, contents_append, contents_words h.isWord]

/-- Outside of parentheses, a line break is a token. -/
theorem contents_lineBreak {cur : Cursor} (hcur : cur.depth = 0) (xs : List Lexeme) :
    contents cur (lineBreak :: xs) = lineBreak.content :: contents (cur.advance lineBreak) xs := by
  have htoken : cur.token? lineBreak = some ⟨.newline, none, .point cur.line cur.column⟩ :=
    if_pos hcur
  rw [contents, readings, htoken]
  rfl

/-- The tokens of the lines of a program. -/
theorem contents_lines {es : List Expr} (h : ∀ e ∈ es, e.Fits .statement) {cur : Cursor}
    (hcur : cur.depth = 0) :
    contents cur (cut (['\n'].intercalate (es.map fun e => e.line.toList))) =
      [lineBreak.content].intercalate (es.map fun e => e.words.map content) := by
  induction es generalizing cur with
  | nil =>
    rw [List.map_nil, List.intercalate_nil, cut]
    rfl
  | cons e es ih =>
    obtain ⟨he, hes⟩ := List.forall_mem_cons.mp h
    cases es with
    | nil =>
      obtain ⟨after, -, hcontents⟩ := contents_line he hcur ends_nil
      rw [List.append_nil, cut] at hcontents
      rw [List.map_singleton, List.intercalate_singleton, List.map_singleton,
        List.intercalate_singleton, hcontents]
      exact List.append_nil _
    | cons e' es =>
      have hend : Ends ('\n' :: ['\n'].intercalate ((e' :: es).map fun e => e.line.toList)) :=
        fun c hc => .inr (Option.some.inj hc).symm
      obtain ⟨after, hafter, hcontents⟩ := contents_line he hcur hend
      have hbelow : (after.advance lineBreak).depth = 0 := by
        rw [Cursor.depth_advance, hafter]
        rfl
      rw [intercalate_map_cons_cons, hcontents, cut_lineBreak, contents_lineBreak hafter,
        ih hes hbelow, intercalate_map_cons_cons]

/-- Tokens that are those of the lines of a program are a program. -/
theorem program_of_content {es : List Expr} (hne : es ≠ []) (h : ∀ e ∈ es, e.Fits .statement)
    {ts : List Token} (hts : ts.map Token.content =
      [lineBreak.content].intercalate (es.map fun e => e.words.map content)) :
    Program .plain ts es := by
  induction es generalizing ts with
  | nil => exact absurd rfl hne
  | cons e es ih =>
    obtain ⟨he, hes⟩ := List.forall_mem_cons.mp h
    cases es with
    | nil =>
      rw [List.map_singleton, List.intercalate_singleton] at hts
      have hlast := Program.last (he.derives hts) (show LineBreaks [] from List.forall_mem_nil _)
      rwa [List.append_nil] at hlast
    | cons e' es =>
      rw [intercalate_map_cons_cons] at hts
      obtain ⟨us, vs, rfl, hus, hvs⟩ := List.map_eq_append_iff.mp hts
      obtain ⟨t, vs, rfl, ht, hvs⟩ := List.map_eq_cons_iff.mp hvs
      have hbreak : LineBreaks [t] := List.forall_mem_singleton.mpr (congrArg Prod.fst ht)
      exact .cons (he.derives hus) (List.cons_ne_nil t []) hbreak
        (ih (List.cons_ne_nil e' es) hes hvs)

namespace Expr

theorem toList_canonical (es : List Expr) :
    (Expr.block es).canonical.toList = ['\n'].intercalate (es.map fun e => e.line.toList) := by
  rw [canonical, String.toList_intercalate, List.map_map]
  rfl

/-- **Reading the canonical source** of a well-formed tree gives the tree back. -/
theorem parse_canonical {t : Expr} (h : t.WellFormed) : Expr.parse t.canonical = t := by
  obtain ⟨es, rfl, hne, hes⟩ := h
  rw [parse_eq_block_iff]
  refine program_of_content hne hes ?_
  rw [← contents_lines hes (show Cursor.start.depth = 0 from rfl), ← toList_canonical, contents,
    TokenStream.ofSource, TokenStream.trace, List.map_map]
  rfl

/-- **Reading and writing programs.** The trees that reading gives, other than malformed ones, are
exactly the well-formed trees, and the canonical source of such a tree is read as that tree. -/
theorem wellFormed_iff_parse :
    (∀ t : Expr, t.WellFormed ↔
      (∀ message, t ≠ .malformed message) ∧ ∃ source, Expr.parse source = t) ∧
      ∀ t : Expr, t.WellFormed → Expr.parse t.canonical = t := by
  refine ⟨fun t => ⟨fun h => ⟨?_, t.canonical, parse_canonical h⟩, ?_⟩, fun t => parse_canonical⟩
  · rintro message rfl
    obtain ⟨es, hes, -⟩ := h
    cases hes
  · rintro ⟨hwell, source, rfl⟩
    exact wellFormed_of_parse hwell

/-- A function literal and a call of it. -/
theorem wellFormed_iff_parse_square :
    let t : Expr :=
      .block [.declare "f" (.func ["x"] (.unary .minus (.binary .pow (.var "x") (.int 2)))),
        .call (.var "f") [.int 10]]
    t.WellFormed ∧ t.canonical = "let f = ( x ) => - x ** 2\nf ( 10 )" ∧
      Expr.parse t.canonical = t := by
  intro t
  have hpower : Fits .power (.binary .pow (.var "x") (.int 2)) :=
    .power (.ofPrimary (.var (by decide)))
      (.ofPower (.ofApplication (.ofPrimary (.int (by decide)))))
  have hbody : Fits .statement (.unary .minus (.binary .pow (.var "x") (.int 2))) :=
    .ofSum (.ofProduct (.ofSigned (.sign (.ofPower hpower))))
  have harg : Fits .statement (.int 10) :=
    .ofSum (.ofProduct (.ofSigned (.ofPower (.ofApplication (.ofPrimary (.int (by decide)))))))
  have hcall : Fits .application (.call (.var "f") [.int 10]) :=
    .call (.var (by decide)) (List.forall_mem_singleton.mpr harg)
  have ht : t.WellFormed := by
    refine ⟨_, rfl, List.cons_ne_nil _ _, List.forall_mem_cons.mpr ⟨?_, ?_⟩⟩
    · exact .declare (by decide) (.func (List.forall_mem_singleton.mpr (by decide)) hbody)
    · exact List.forall_mem_singleton.mpr (.ofSum (.ofProduct (.ofSigned (.ofPower
        (.ofApplication hcall)))))
  exact ⟨ht, by cbv, wellFormed_iff_parse.2 t ht⟩

end Expr

end ArrowCalc
