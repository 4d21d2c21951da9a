import ArrowCalc.Proofs.Lexeme.Occurrences
import ArrowCalc.Proofs.Spelling
import Mathlib.Data.List.Chain

/-!
# Spans cover the source

Columns count characters of tokens, so a line is measured without its blanks. In this measure the
tokens of a line leave no column out and share none: each begins where the one before it ends, the
first at column one, and the characters at the columns of a token are how the token is written.
Line breaks and ends of the input have no width and stand behind the last character of their line.

The proof follows the cursor. What is read from a place on covers the rest of the line that the
cursor is in from its column on, and each line behind it from the first column on.

## Main definitions

* `visible` — a line without blanks
* `Token.WrittenAs` — the texts that a token is written with
* `TilesFrom` — the tokens cover the characters of a line from a column on
* `Cursor.Covers` — the tokens cover the lines of a text from the cursor on

## Main results

* `TilesFrom.cons` — one more token in front
* `Cursor.Covers.blank`, `Cursor.Covers.lineBreak`, `Cursor.Covers.solid` — one more lexeme in front
* `Lexeme.Lexes.covers` — what is read from a place on
* `TokenStream.spans_tile_lines` — the spans of a source
-/

namespace ArrowCalc

open Lexeme Literal Pattern

/-! ### Tokens and their texts

A token forgets how it was spelled when it has a value: `0x10` and `16` give the same token. So the
text at the columns of a token is not determined by the token, and `Token.WrittenAs` says which
texts are possible. -/

/-- A line without blanks. -/
def visible (line : List Char) : List Char := line.filter fun c => ¬ isBlank c

/-- The texts that a token is written with: what its kind fixes, the text that it carries, or a
literal with the value that it carries. Line breaks and ends of the input have no text. -/
inductive Token.WrittenAs : Token → List Char → Prop where
  | fixed {kind : TokenKind} {w : List Char} {span : Span}
      (hkind : kind ∉ [TokenKind.int, .float, .bool, .ident, .newline]) (hw : w ∈ kind.pattern) :
      WrittenAs ⟨kind, none, span⟩ w
  | carried {kind : TokenKind} {name : String} {span : Span} (hkind : kind ∈ [.ident, .unknown]) :
      WrittenAs ⟨kind, some (.text name), span⟩ name.toList
  | int {w : List Char} {n : ℕ} {span : Span} (hvalue : Writes w n) :
      WrittenAs ⟨.int, some (.int n), span⟩ w
  | float {w : List Char} {d : Decimal} {x : Float} {span : Span} (hw : w ∈ Pattern.float)
      (hd : LongestDecimal w d) (hx : Double.Nearest d.value x.toModel.unpack) :
      WrittenAs ⟨.float, some (.float x), span⟩ w
  | bool {value : Bool} {span : Span} :
      WrittenAs ⟨.bool, some (.bool value), span⟩ (if value then "true" else "false").toList
  | empty {kind : TokenKind} {span : Span} (hkind : kind ∈ [.newline, .eof]) :
      WrittenAs ⟨kind, none, span⟩ []

/-- The columns of a token. -/
def Token.columns (t : Token) : List ℕ := List.range' t.span.start (t.span.stop - t.span.start)

/-- The tokens stand on the line one behind the other, and cover the characters, which begin at the
column. -/
structure TilesFrom (line column : ℕ) (cs : List Char) (ts : List Token) : Prop where
  inside : ∀ t ∈ ts, t.span.line = line ∧ column ≤ t.span.start
  first : ∀ t ∈ ts.head?, t.span.start = column
  contiguous : ts.IsChain fun t u => u.span.start = t.span.stop
  covers : ts.flatMap Token.columns = List.range' column cs.length
  written : ∀ t ∈ ts, t.WrittenAs (cs.extract (t.span.start - column) (t.span.stop - column))
  ends : ∀ t ∈ ts, t.kind ∈ [TokenKind.newline, .eof] → t.span = .point line (column + cs.length)

/-- A token that a lexeme denotes can be written with the text of the lexeme. -/
theorem Lexeme.Denotes.writtenAs {x : Lexeme} {kind : TokenKind} {payload : Option Payload}
    (h : Denotes x kind payload) (hx : x.IsGenuine) (hbreak : x.cls ≠ .token .newline)
    (span : Span) : Token.WrittenAs ⟨kind, payload, span⟩ x.text := by
  have hcarried : ∀ {kind : TokenKind} (w : List Char), kind ∈ [TokenKind.ident, .unknown] →
      Token.WrittenAs ⟨kind, some (.text (String.ofList w)), span⟩ w := by
    intro kind w hkind
    have hwritten := @Token.WrittenAs.carried kind (String.ofList w) span hkind
    rwa [String.toList_ofList] at hwritten
  cases h with
  | int hvalue _ => exact .int hvalue
  | large _ => exact hcarried _ (by decide)
  | float hd hnearest => exact .float hx.mem_pattern hd hnearest
  | true => exact @Token.WrittenAs.bool Bool.true span
  | false => exact @Token.WrittenAs.bool Bool.false span
  | ident => exact hcarried _ (by decide)
  | @plain kind w hkind =>
    refine .fixed (fun hmem => ?_) hx.mem_pattern
    by_cases hnewline : kind = .newline
    · exact hbreak (congrArg Class.token hnewline)
    · exact hkind (by simpa [hnewline] using hmem)
  | stray => exact hcarried _ (by decide)

/-! ### Tokens on a line

Tokens are put in front of those that cover the rest of a line. The rest keeps its columns, which do
not begin at one then, so the first column is a parameter. -/

theorem tilesFrom_nil (line column : ℕ) : TilesFrom line column [] [] where
  inside t ht := by cases ht
  first t ht := by cases ht
  contiguous := .nil
  covers := rfl
  written t ht := by cases ht
  ends t ht := by cases ht

/-- A piece of the characters is found at the same columns when there are more in front. -/
theorem extract_append {w cs : List Char} {column start : ℕ} (h : column + w.length ≤ start)
    (stop : ℕ) :
    (w ++ cs).extract (start - column) (stop - column) =
      cs.extract (start - (column + w.length)) (stop - (column + w.length)) := by
  obtain ⟨i, rfl⟩ := Nat.exists_eq_add_of_le h
  have hstart : column + w.length + i - column = w.length + i := by omega
  have hi : column + w.length + i - (column + w.length) = i := by omega
  rw [List.extract_eq_take_drop, List.extract_eq_take_drop, hstart, hi,
    List.drop_length_add_append]
  congr 1
  omega

/-- A token in front of the others. Without a width it has to be the end of the line. -/
theorem TilesFrom.cons {line column : ℕ} {w cs : List Char} {t : Token} {ts : List Token}
    (h : TilesFrom line (column + w.length) cs ts)
    (hspan : t.span = ⟨line, column, column + w.length⟩) (hwritten : t.WrittenAs w)
    (hend : t.kind ∈ [TokenKind.newline, .eof] → w ++ cs = []) :
    TilesFrom line column (w ++ cs) (t :: ts) where
  inside := by
    refine List.forall_mem_cons.mpr ⟨?_, fun u hu => ?_⟩
    · rw [hspan]
      exact ⟨rfl, Nat.le_refl _⟩
    · obtain ⟨hline, hstart⟩ := h.inside u hu
      exact ⟨hline, by omega⟩
  first := by
    rintro _ ⟨⟩
    rw [hspan]
  contiguous := by
    refine List.isChain_cons.mpr ⟨fun u hu => ?_, h.contiguous⟩
    rw [h.first u hu, hspan]
  covers := by
    rw [List.flatMap_cons, h.covers, Token.columns, hspan, Nat.add_sub_cancel_left,
      List.range'_append_1, List.length_append]
  written := by
    refine List.forall_mem_cons.mpr ⟨?_, fun u hu => ?_⟩
    · rw [hspan, List.extract_eq_take_drop, Nat.sub_self, Nat.add_sub_cancel_left, Nat.sub_zero,
        List.drop_zero, List.take_left]
      exact hwritten
    · -- the column that indices are taken from is now that of `t`
      rw [extract_append (h.inside u hu).2]
      exact h.written u hu
  ends := by
    refine List.forall_mem_cons.mpr ⟨fun hkind => ?_, fun u hu hkind => ?_⟩
    · have hnil := hend hkind
      have hw := (List.append_eq_nil_iff.mp hnil).1
      rw [hspan, hnil, hw]
      rfl
    · rw [h.ends u hu hkind, List.length_append, Nat.add_assoc]

/-- A token without a width at the end of the line. -/
theorem TilesFrom.cons_end {line column : ℕ} {kind : TokenKind} {ts : List Token}
    (h : TilesFrom line column [] ts) (hkind : kind ∈ [TokenKind.newline, .eof]) :
    TilesFrom line column [] (⟨kind, none, .point line column⟩ :: ts) :=
  TilesFrom.cons (w := []) h rfl (.empty hkind) fun _ => rfl

theorem tilesFrom_replicate_eof (line column n : ℕ) :
    TilesFrom line column [] (List.replicate n (Token.eof (.point line column))) := by
  induction n with
  | zero => exact tilesFrom_nil line column
  | succ n ih => exact ih.cons_end (by decide)

/-- The tokens on a line. -/
def onLine (line : ℕ) (ts : List Token) : List Token := ts.filter fun t => t.span.line = line

theorem onLine_append (line : ℕ) (ts us : List Token) :
    onLine line (ts ++ us) = onLine line ts ++ onLine line us := List.filter_append ts us

theorem onLine_eq_self {line : ℕ} {ts : List Token} (h : ∀ t ∈ ts, t.span.line = line) :
    onLine line ts = ts := List.filter_eq_self.mpr fun t ht => decide_eq_true (h t ht)

theorem onLine_eq_nil {line : ℕ} {ts : List Token} (h : ∀ t ∈ ts, t.span.line ≠ line) :
    onLine line ts = [] :=
  List.filter_eq_nil_iff.mpr fun t ht heq => h t ht (of_decide_eq_true heq)

/-! ### Lines of a text

A text without a line break in front of another one makes the first line longer and leaves the
others alone. -/

theorem splitOn_lineBreak_cons (v : List Char) :
    ('\n' :: v).splitOn '\n' = [] :: v.splitOn '\n' := by
  rw [List.splitOn_cons_eq_if_modifyHead]
  rfl

theorem splitOn_append_of_notMem {w : List Char} (hw : '\n' ∉ w) (v : List Char) :
    (w ++ v).splitOn '\n' = (v.splitOn '\n').modifyHead (w ++ ·) := by
  induction w with
  | nil => exact (congrFun List.modifyHead_id (v.splitOn '\n')).symm
  | cons c w ih =>
    obtain ⟨hc, hw⟩ := not_or.mp (mt List.mem_cons.mpr hw)
    have hne : ¬ (c == '\n') := fun heq => hc (eq_of_beq heq).symm
    rw [List.cons_append, List.splitOn_cons_eq_if_modifyHead, if_neg hne, ih hw]
    cases v.splitOn '\n' <;> rfl

theorem length_splitOn_lineBreak (v : List Char) :
    (v.splitOn '\n').length = 1 + v.count '\n' := by
  induction v with
  | nil => rfl
  | cons c v ih =>
    rw [List.splitOn_cons_eq_if_modifyHead, List.count_cons]
    split
    · rw [List.length_cons, ih, Nat.add_assoc]
    · rw [List.length_modifyHead, ih, Nat.add_zero]

/-- What stands in front of a text belongs to its first line. -/
theorem getElem?_zero_splitOn_append {w v l : List Char} (hw : '\n' ∉ w)
    (h : ((w ++ v).splitOn '\n')[0]? = some l) :
    ∃ k, (v.splitOn '\n')[0]? = some k ∧ w ++ k = l := by
  rw [splitOn_append_of_notMem hw, List.getElem?_modifyHead, if_pos rfl] at h
  exact Option.map_eq_some_iff.mp h

theorem getElem?_succ_splitOn_append {w : List Char} (hw : '\n' ∉ w) (v : List Char) (i : ℕ) :
    ((w ++ v).splitOn '\n')[i + 1]? = (v.splitOn '\n')[i + 1]? := by
  rw [splitOn_append_of_notMem hw, List.getElem?_modifyHead, if_neg (Nat.succ_ne_zero i)]

namespace Cursor

/-! ### What is read from a place on

A cursor never goes back to a line, so the tokens of a line are read before it leaves the line. -/

/-- The tokens of lexemes, and then `n` ends of the input. -/
def tokensWithEnds (cur : Cursor) (xs : List Lexeme) (n : ℕ) : List Token :=
  cur.tokens xs ++ List.replicate n (Token.eof (cur.advanceAll xs).span)

/-- The first lexeme gives at most one token, and the others are read from the place behind it. -/
theorem tokensWithEnds_cons (cur : Cursor) (x : Lexeme) (xs : List Lexeme) (n : ℕ) :
    cur.tokensWithEnds (x :: xs) n =
      (cur.token? x).toList ++ (cur.advance x).tokensWithEnds xs n := by
  rw [tokensWithEnds, tokens_cons, List.append_assoc]
  rfl

theorem advance_of_newline {x : Lexeme} (h : x.cls = .token .newline) (cur : Cursor) :
    (cur.advance x).line = cur.line + 1 ∧ (cur.advance x).column = 1 := by
  rw [advance, h]
  exact ⟨rfl, rfl⟩

theorem advance_of_solid {x : Lexeme} (hblank : x.cls ≠ .blank) (hbreak : x.cls ≠ .token .newline)
    (cur : Cursor) :
    (cur.advance x).line = cur.line ∧ (cur.advance x).column = cur.column + x.text.length := by
  rw [advance]
  split
  · next h => exact absurd h hblank
  · next h => exact absurd h hbreak
  · exact ⟨rfl, rfl⟩
  · exact ⟨rfl, rfl⟩
  · exact ⟨rfl, rfl⟩

theorem line_le_advance (cur : Cursor) (x : Lexeme) : cur.line ≤ (cur.advance x).line := by
  by_cases hblank : x.cls = .blank
  · rw [advance_of_blank hblank]
  by_cases hbreak : x.cls = .token .newline
  · rw [(advance_of_newline hbreak cur).1]
    exact Nat.le_succ _
  · rw [(advance_of_solid hblank hbreak cur).1]

/-- A token is on the line of the cursor. -/
theorem line_of_token? {cur : Cursor} {x : Lexeme} {t : Token} (h : cur.token? x = some t) :
    t.span.line = cur.line := by
  rcases token?_eq_some h with ⟨-, -, rfl⟩ | ⟨-, -, rfl⟩ <;> rfl

theorem line_of_mem_token? {cur : Cursor} {x : Lexeme} :
    ∀ t ∈ (cur.token? x).toList, t.span.line = cur.line := fun _ ht =>
  line_of_token? (Option.mem_toList.mp ht)

theorem onLine_token?_of_lt {cur : Cursor} {line : ℕ} (h : cur.line < line) (x : Lexeme) :
    onLine line (cur.token? x).toList = [] :=
  onLine_eq_nil fun t ht => by
    rw [line_of_mem_token? t ht]
    exact Nat.ne_of_lt h

/-- Nothing is read on a line that is over. -/
theorem line_le_of_mem {cur : Cursor} {xs : List Lexeme} {n : ℕ} {t : Token}
    (h : t ∈ cur.tokensWithEnds xs n) : cur.line ≤ t.span.line := by
  induction xs generalizing cur with
  | nil =>
    rw [(List.mem_replicate.mp h).2]
    exact Nat.le_refl _
  | cons x xs ih =>
    rw [tokensWithEnds_cons, List.mem_append] at h
    rcases h with h | h
    · rw [line_of_token? (Option.mem_toList.mp h)]
    · exact (cur.line_le_advance x).trans (ih h)

end Cursor

namespace Lexeme

/-- A blank lexeme does not show in a line. -/
theorem visible_append_of_blank {text w : List Char} {x : Lexeme} (h : IsFirst text x)
    (hblank : x.cls = .blank) : visible (x.text ++ w) = visible w := by
  have hall := List.all_eq_true.mp (h.all_isBlank hblank)
  have hnone : visible x.text = [] := List.filter_eq_nil_iff.mpr fun c hc => by
    simp [hall c hc]
  rw [visible, List.filter_append]
  exact congrArg (· ++ visible w) hnone

/-- Any other lexeme shows with all of its characters. -/
theorem visible_append_of_solid {text w : List Char} {x : Lexeme} (h : IsFirst text x)
    (hblank : x.cls ≠ .blank) : visible (x.text ++ w) = x.text ++ visible w := by
  have hsolid : visible x.text = x.text := by
    refine List.filter_eq_self.mpr fun c hmem => decide_eq_true fun hc => ?_
    rcases h.cls_of_mem hmem (mem_delimiters_of_isBlank hc) with
      ⟨-, hcls⟩ | ⟨rfl, -⟩ | ⟨rfl, -⟩ | ⟨rfl, -⟩
    · exact hblank hcls
    · exact absurd hc (by decide)
    · exact absurd hc (by decide)
    · exact absurd hc (by decide)
  rw [visible, List.filter_append]
  exact congrArg (· ++ visible w) hsolid

/-- No lexeme but a line break is one of the tokens without a width. -/
theorem IsFirst.kind_notMem_ends {text : List Char} {x : Lexeme} (h : IsFirst text x)
    (hblank : x.cls ≠ .blank) (hcls : x.cls ≠ .token .newline) :
    x.content.1 ∉ [TokenKind.newline, .eof] := by
  have hdenotes := denotes_content h.isGenuine hblank
  intro hkind
  rcases List.mem_pair.mp hkind with hkind | hkind
  · exact h.kind_ne_newline hblank hcls hkind
  · rw [hkind] at hdenotes
    cases hdenotes with
    | plain _ => exact Language.notMem_zero _ h.isGenuine.mem_pattern

end Lexeme

/-- The tokens cover the line that the cursor is in from the cursor on, and the lines behind it from
their beginnings on. -/
structure Cursor.Covers (cur : Cursor) (text : List Char) (ts : List Token) : Prop where
  this : ∀ l, (text.splitOn '\n')[0]? = some l →
    TilesFrom cur.line cur.column (visible l) (onLine cur.line ts)
  later : ∀ i l, (text.splitOn '\n')[i + 1]? = some l →
    TilesFrom (cur.line + (i + 1)) 1 (visible l) (onLine (cur.line + (i + 1)) ts)

namespace Cursor

/-- The ends of the input stand behind the last character. -/
theorem covers_ends (cur : Cursor) (n : ℕ) :
    cur.Covers [] (List.replicate n (Token.eof cur.span)) where
  this l hl := by
    obtain rfl : [] = l := Option.some.inj hl
    have hline : ∀ t ∈ List.replicate n (Token.eof cur.span), t.span.line = cur.line :=
      fun t ht => congrArg (fun t => t.span.line) (List.mem_replicate.mp ht).2
    rw [onLine_eq_self hline]
    exact tilesFrom_replicate_eof cur.line cur.column n
  later i l hl := by cases hl

/-- A blank in front moves no token. -/
theorem Covers.blank {cur : Cursor} {rest : List Char} {ts : List Token} {x : Lexeme}
    (h : cur.Covers rest ts) (hfirst : IsFirst (x.text ++ rest) x) (hblank : x.cls = .blank) :
    cur.Covers (x.text ++ rest) ts := by
  have hbreak : x.cls ≠ .token .newline := by
    rw [hblank]
    decide
  have hmem := hfirst.lineBreak_notMem hbreak
  constructor
  · intro l hl
    obtain ⟨k, hk, rfl⟩ := getElem?_zero_splitOn_append hmem hl
    rw [visible_append_of_blank hfirst hblank]
    exact h.this k hk
  · intro i l hl
    rw [getElem?_succ_splitOn_append hmem] at hl
    exact h.later i l hl

/-- A line break ends the line, and is on it if it is a token. -/
theorem Covers.lineBreak {cur : Cursor} {rest : List Char} {ts : List Token} {x : Lexeme}
    (h : (cur.advance x).Covers rest ts) (hbreak : x.cls = .token .newline)
    (hlater : ∀ t ∈ ts, (cur.advance x).line ≤ t.span.line) :
    cur.Covers ('\n' :: rest) ((cur.token? x).toList ++ ts) := by
  obtain ⟨hline, hcolumn⟩ := advance_of_newline hbreak cur
  constructor
  · intro l hl
    rw [splitOn_lineBreak_cons] at hl
    obtain rfl : [] = l := Option.some.inj hl
    -- nothing but the line break itself can still be on this line
    have hnone : onLine cur.line ts = [] := onLine_eq_nil fun t ht => by
      have hle := hlater t ht
      omega
    rw [onLine_append, hnone, List.append_nil, onLine_eq_self line_of_mem_token?]
    cases htoken : cur.token? x with
    | none => exact tilesFrom_nil _ _
    | some t =>
      rcases token?_eq_some htoken with ⟨-, -, rfl⟩ | ⟨-, hcls, -⟩
      · exact (tilesFrom_nil _ _).cons_end (by decide)
      · exact absurd hbreak hcls
  · intro i l hl
    rw [splitOn_lineBreak_cons, List.getElem?_cons_succ] at hl
    -- the first line behind the line break is the one that the cursor is in then
    have hnext : cur.line + (i + 1) = (cur.advance x).line + i := by omega
    rw [onLine_append, onLine_token?_of_lt (by omega), List.nil_append, hnext]
    cases i with
    | zero =>
      have hthis := h.this l hl
      rwa [hcolumn] at hthis
    | succ i => exact h.later i l hl

/-- Any other lexeme covers its own characters. -/
theorem Covers.solid {cur : Cursor} {rest : List Char} {ts : List Token} {x : Lexeme}
    (h : (cur.advance x).Covers rest ts) (hfirst : IsFirst (x.text ++ rest) x)
    (hblank : x.cls ≠ .blank) (hbreak : x.cls ≠ .token .newline) :
    cur.Covers (x.text ++ rest) ((cur.token? x).toList ++ ts) := by
  obtain ⟨hline, hcolumn⟩ := advance_of_solid hblank hbreak cur
  have hmem := hfirst.lineBreak_notMem hbreak
  constructor
  · intro l hl
    obtain ⟨k, hk, rfl⟩ := getElem?_zero_splitOn_append hmem hl
    have hthis := h.this k hk
    rw [hline, hcolumn] at hthis
    rw [onLine_append, onLine_eq_self line_of_mem_token?, visible_append_of_solid hfirst hblank]
    cases htoken : cur.token? x with
    | none =>
      rcases token?_eq_none_iff.mp htoken with hcls | ⟨hcls, -⟩
      · exact absurd hcls hblank
      · exact absurd hcls hbreak
    | some t =>
      rcases token?_eq_some htoken with ⟨hcls, -⟩ | ⟨-, -, rfl⟩
      · exact absurd hcls hbreak
      · have hdenotes := denotes_content hfirst.isGenuine hblank
        exact hthis.cons rfl (hdenotes.writtenAs hfirst.isGenuine hbreak _)
          fun hend => absurd hend (hfirst.kind_notMem_ends hblank hbreak)
  · intro i l hl
    rw [getElem?_succ_splitOn_append hmem] at hl
    have hlater := h.later i l hl
    rw [hline] at hlater
    rw [onLine_append, onLine_token?_of_lt (by omega), List.nil_append]
    exact hlater

end Cursor

namespace Lexeme

/-- What is read from a place on covers the text. -/
theorem Lexes.covers {text : List Char} {xs : List Lexeme} (h : Lexes text xs) (n : ℕ)
    (cur : Cursor) : cur.Covers text (cur.tokensWithEnds xs n) := by
  induction h generalizing cur with
  | nil => exact cur.covers_ends n
  | @cons x rest xs hfirst _ ih =>
    rw [Cursor.tokensWithEnds_cons]
    by_cases hblank : x.cls = .blank
    · have hnone : cur.token? x = none := Cursor.token?_eq_none_iff.mpr (.inl hblank)
      rw [hnone, Cursor.advance_of_blank hblank]
      exact (ih cur).blank hfirst hblank
    by_cases hbreak : x.cls = .token .newline
    · rw [hfirst.text_of_cls.1 hbreak]
      exact (ih _).lineBreak hbreak fun t ht => Cursor.line_le_of_mem ht
    · exact (ih _).solid hfirst hblank hbreak

/-- The line is counted by characters, whether or not the line breaks are tokens. -/
theorem Lexes.line_advanceAll {text : List Char} {xs : List Lexeme} (h : Lexes text xs)
    (cur : Cursor) : (cur.advanceAll xs).line = cur.line + text.count '\n' := by
  induction h generalizing cur with
  | nil => rfl
  | @cons x rest xs hfirst _ ih =>
    have hadvance : (cur.advance x).line = cur.line + x.text.count '\n' := by
      by_cases hbreak : x.cls = .token .newline
      · rw [(Cursor.advance_of_newline hbreak cur).1, hfirst.text_of_cls.1 hbreak]
        rfl
      rw [List.count_eq_zero_of_not_mem (hfirst.lineBreak_notMem hbreak), Nat.add_zero]
      by_cases hblank : x.cls = .blank
      · rw [Cursor.advance_of_blank hblank]
      · exact (Cursor.advance_of_solid hblank hbreak cur).1
    have hall : cur.advanceAll (x :: xs) = (cur.advance x).advanceAll xs := rfl
    rw [hall, ih, hadvance, List.count_append, Nat.add_assoc]

end Lexeme

theorem Cursor.line_start_advanceAll (u : List Char) :
    (Cursor.start.advanceAll (cut u)).line = 1 + u.count '\n' :=
  (lexes_iff.mpr rfl).line_advanceAll .start

/-! ### Sources -/

namespace TokenStream

/-- The tokens of each line cover it. -/
theorem tilesFrom_onLine (source : String) (n : ℕ) {i : ℕ} {line : List Char}
    (h : (source.toList.splitOn '\n')[i]? = some line) :
    TilesFrom (i + 1) 1 (visible line) (onLine (i + 1) ((ofSource source).withEnds n)) := by
  have hlexes : Lexes source.toList (cut source.toList) := lexes_iff.mpr rfl
  have hcovers : Cursor.start.Covers source.toList ((ofSource source).withEnds n) :=
    hlexes.covers n .start
  cases i with
  | zero => exact hcovers.this line h
  | succ i =>
    have hline : Cursor.start.line + (i + 1) = i + 1 + 1 := Nat.add_comm 1 (i + 1)
    exact hline ▸ hcovers.later i line h

/-- The end of the input stands behind the last line. -/
theorem eof_ofSource (source : String) :
    ∃ last, (source.toList.splitOn '\n').getLast? = some last ∧
      (ofSource source).eof =
        .point (source.toList.splitOn '\n').length ((visible last).length + 1) := by
  have hline : (ofSource source).eof.line = (source.toList.splitOn '\n').length := by
    rw [length_splitOn_lineBreak]
    exact Cursor.line_start_advanceAll source.toList
  have hlast := List.getLast?_eq_some_getLast (List.splitOn_ne_nil '\n' source.toList)
  refine ⟨_, hlast, ?_⟩
  obtain ⟨k, hk⟩ := Nat.exists_eq_succ_of_ne_zero
    (mt List.length_eq_zero_iff.mp (List.splitOn_ne_nil '\n' source.toList))
  rw [List.getLast?_eq_getElem?, hk] at hlast
  have hmem : Token.eof (ofSource source).eof ∈ onLine (k + 1) ((ofSource source).withEnds 1) :=
    List.mem_filter.mpr ⟨List.mem_append_right _ List.mem_cons_self,
      decide_eq_true (hline.trans hk)⟩
  have hkind : TokenKind.eof ∈ [TokenKind.newline, .eof] := by decide
  have hend := (tilesFrom_onLine source 1 hlast).ends _ hmem hkind
  rw [Nat.add_comm 1] at hend
  rw [hk]
  exact hend

/-- **Spans cover the source.** The tokens on each line of a source, with any number of ends of the
input behind the last one, cover the characters of the line without its blanks, from column one on.
The end of the input repeats at one place, behind the last line. The line of a token is one more
than the number of line breaks in front of it. -/
theorem spans_tile_lines (source : String) :
    (∀ n i line, (source.toList.splitOn '\n')[i]? = some line →
      TilesFrom (i + 1) 1 (visible line) (onLine (i + 1) ((ofSource source).withEnds n))) ∧
    (∃ last, (source.toList.splitOn '\n').getLast? = some last ∧
      ∀ n, (ofSource source).get ((ofSource source).tokens.length + n) =
        .eof (.point (source.toList.splitOn '\n').length ((visible last).length + 1))) ∧
    (∀ t ∈ (ofSource source).tokens, t.kind ≠ .eof) ∧
    (occurrences source).map (fun o => o.reading.token) = (ofSource source).tokens ∧
    ∀ o ∈ occurrences source, o.through <+: source.toList ∧
      o.reading.token.span.line = 1 + o.before.count '\n' := by
  refine ⟨fun n i line hl => tilesFrom_onLine source n hl, ?_, ?_, ?_, ?_⟩
  · obtain ⟨last, hlast, heof⟩ := eof_ofSource source
    refine ⟨last, hlast, fun n => ?_⟩
    rw [get, List.getD_eq_getElem?_getD, List.getElem?_eq_none (Nat.le_add_right _ n), heof]
    rfl
  · exact fun t ht => (isSpelled_of_mem_ofSource ht).2
  · rw [ofSource, trace, ← map_reading_occurrences [], List.map_map]
    rfl
  · intro o ho
    obtain ⟨hthrough, -, x, -, -, htoken⟩ := spec_of_mem_occurrences ho
    refine ⟨hthrough, ?_⟩
    rw [Cursor.line_of_token? htoken, Cursor.line_start_advanceAll]

end TokenStream

end ArrowCalc
